import Qsym.Concolic.Arithmetic
import Qsym.Concolic.Requests

/-!
# Qsym.Concolic.Step

**One step** of the program and of the tool. The requests of the handler are ones that the solver
takes, they hold of exactly the inputs whose machines show the same at the instruction as the one
that is watched, and after the step the shadow describes the machines of these (`handler_steps`).
-/

namespace Qsym

open Procedure Qsym.Expr X86
open SymbolicExprBuilder (chain)

namespace Process

open Handler Stateful

variable {Reg : Type} [DecidableEq Reg] {T : Process Reg} {σ : Session}
variable {E : Input → Prop} {M : Input → Machine Reg} {s : Shadow} {i : Instruction Reg}

/-! ### Handlers invent nothing -/

section Tame

variable {reads : Nat → Prop} {machine : Machine Reg}

theorem mov_tame (dst : Location Reg) (src : Source Reg) :
    Handler.Tame reads ((Instruction.mov dst src).handler T machine) fun _ => True := by
  have hmove {get : Nat → Handler Reg (Option Expr)}
      {put : Nat → Option Expr → Handler Reg Unit} {n : Nat}
      (hget : ∀ i, Handler.Tame reads (get i) (OptTame reads))
      (hput : ∀ i (x : Option Expr), OptTame reads x → Handler.Tame reads (put i x) fun _ => True) :
      Handler.Tame reads (forEach (fun i => moveByte (get i) (put i)) (List.range n))
        fun _ => True :=
    .forEach (fun i => moveByte_tame (hget i) (hput i _)) _
  have haddr (m : MemRef Reg) :
      Handler.Tame reads ((T.running machine).makeAddrConcrete (m.arg T machine)) fun _ => True :=
    makeAddrConcrete_tame _ _
  cases dst with
  | reg dst =>
      cases src with
      | imm v => exact clearExprFromReg_tame _ dst
      | loc src =>
          cases src with
          | reg src =>
              exact hmove (fun _ => getExprFromRegByte_tame _ src _) fun _ _ hx =>
                setExprToRegByte_tame _ dst _ hx
          | mem m =>
              exact (haddr m).bind fun _ _ =>
                hmove (fun _ => getExprFromMemByte_tame _) fun _ _ hx =>
                setExprToRegByte_tame _ dst _ hx
  | mem m =>
      cases src with
      | imm v => exact (haddr m).bind fun _ _ => clearExprFromMem_tame _ _
      | loc src =>
          cases src with
          | reg src =>
              exact (haddr m).bind fun _ _ =>
                hmove (fun _ => getExprFromRegByte_tame _ src _) fun _ _ hx =>
                setExprToMemByte_tame _ hx
          | mem m' => exact .stop

theorem movx_tame (kind : ExtKind) (dst : Reg) (src : Location Reg) :
    Handler.Tame reads ((Instruction.movx kind dst src).handler T machine) fun _ => True := by
  cases src with
  | reg src => cases kind <;> exact instrumentMovx_tame _ (getExprFromReg_tame _ src) _ dst
  | mem m => cases kind <;> exact instrumentMovx_tame _ (getExprFromMemSrc_tame _ _) _ dst

theorem alu_tame (op : Alu) (dst : Location Reg) (src : Source Reg) :
    Handler.Tame reads ((Instruction.alu op dst src).handler T machine) fun _ => True := by
  have hkind : op.kind.isDivision = false := by cases op <;> rfl
  cases dst with
  | reg dst =>
      have hbinary {operands : Handler Reg (Option (Expr × Expr))}
          (h : Handler.Tame reads operands fun z => ∀ a, z = some a → PairTame reads a) :
          Handler.Tame reads ((T.running machine).instrumentBinary operands op.kind op.write
            ((T.running machine).setExprToReg dst)) fun _ => True :=
        instrumentBinary_tame _ hkind op.write h fun hx => setExprToReg_tame _ dst hx
      have hreg : Handler.Tame reads ((T.running machine).getExprFromReg dst) (OptTame reads) :=
        getExprFromReg_tame _ dst
      cases src with
      | imm v => exact hbinary (withImmediate_tame _ hreg v)
      | loc src =>
          cases src with
          | reg src =>
              exact hbinary (fixPair_tame hreg (getExprFromReg_tame _ src) (fixRegExpr_tame _ dst)
                (fixRegExpr_tame _ src))
          | mem m =>
              exact hbinary (fixPair_tame hreg (getExprFromMemSrc_tame _ _) (fixRegExpr_tame _ dst)
                (fixMemExpr_tame _ _ _))
  | mem m =>
      have hbinary {operands : Handler Reg (Option (Expr × Expr))}
          (h : Handler.Tame reads operands fun z => ∀ a, z = some a → PairTame reads a) :
          Handler.Tame reads ((T.running machine).instrumentBinary (do
              (T.running machine).makeAddrConcrete (m.arg T machine)
              operands) op.kind op.write
            ((T.running machine).setExprToMem (m.address T machine) m.size)) fun _ => True :=
        instrumentBinary_tame _ hkind op.write ((makeAddrConcrete_tame _ _).bind fun _ _ => h)
          fun hx => setExprToMem_tame _ _ _ hx
      have hmem : Handler.Tame reads
          ((T.running machine).getExprFromMem (m.address T machine) m.size) (OptTame reads) :=
        getExprFromMem_tame _ _ _
      cases src with
      | imm v => exact hbinary (withImmediate_tame _ hmem v)
      | loc src =>
          cases src with
          | reg src =>
              exact hbinary (fixPair_tame hmem (getExprFromReg_tame _ src) (fixMemExpr_tame _ _ _)
                (fixRegExpr_tame _ src))
          | mem m' => exact .stop

theorem handler_tame (i : Instruction Reg) :
    Handler.Tame reads (i.handler T machine) fun _ => True := by
  cases i with
  | mov dst src => exact mov_tame dst src
  | movx kind dst src => exact movx_tame kind dst src
  | lea dst m =>
      exact (getAddrExpr_tame _ m.base m.index m.disp m.scale).bind fun x hx =>
        setExprToReg_tame _ dst hx
  | alu op dst src => exact alu_tame op dst src
  | jcc kind inv target => exact instrumentJcc_tame _ _ target kind inv

/-- So no call of a handler folds a division inexactly. -/
theorem handler_safe (hs : s.Tame reads) (w : World) :
    Safe (body σ) exactly (i.handler T machine s) w := by
  have htame : Handler.Tame reads (i.handler T machine) fun _ => True := handler_tame i
  exact htame.safe hs w

end Tame

/-! ### Handlers keep the shadow describing the machines -/

section Describes

variable (hd : T.Describes σ E M s) (hP : T.pin.Documented) (hptr : T.pin.Points)
  (hb : T.builder = chain)
include hd

/-- A jump changes nothing but the instruction pointer. -/
theorem jcc_describes (kind : JccKind) (inv : Bool) (target : Addr) :
    Ensures (body σ) exactly ((Instruction.jcc kind inv target).handler T (M σ.input)) s
      fun _ s' _ => T.Describes σ E M s' := by
  have hcond : Keeps σ exactly ((T.running (M σ.input)).computeJcc kind inv) :=
    computeJcc_keeps _ kind inv
  refine Ensures.bind (hcond s) fun x s₁ _ ⟨hs₁, _⟩ => ?_
  rw [hs₁]
  cases x with
  | none => exact .ret hd
  | some e => exact Yields.ret hd

include hP hptr hb

theorem handler_describes (hi : i.Fits T) (hc : i.Clears T (M σ.input) s) :
    Ensures (body σ) exactly (i.handler T (M σ.input)) s fun _ s' _ =>
      T.Describes σ (T.Follows σ E M i) (fun ρ => i.effect T (M ρ)) s' := by
  cases i with
  | mov dst src => exact mov_describes hP hd hptr hb hi
  | movx kind dst src => exact movx_describes hP hptr hb hd hi
  | lea dst m => exact lea_describes hP hptr hb (hd.follows _) hi
  | alu op dst src => exact alu_describes hd hP hptr hb hi hc
  | jcc kind inv target => exact jcc_describes (hd.follows _) kind inv target

/-- **One step.** -/
theorem handler_steps (hs : s.Tame (· < σ.inputs.length)) (hi : i.Fits T)
    (hc : i.Clears T (M σ.input) s)
    (next : Addr) {w w' : World} {s' : Shadow} {l : List (Request Reg)}
    (hrun : Runs (body σ) (i.handler T (M σ.input) s) w ((), s', l) w') :
    (∀ q ∈ l, q.Truthful σ) ∧ s'.Tame (· < σ.inputs.length) ∧
      (∀ ρ, (E ρ ∧ ∀ q ∈ l, q.fact ρ) ↔ T.Follows σ E M i ρ) ∧
      T.Describes σ (T.Follows σ E M i) (fun ρ => i.exec T (M ρ) next) s' := by
  have htame : Handler.Tame (· < σ.inputs.length) (i.handler T (M σ.input)) fun _ =>
      True := handler_tame i
  have hsafe : Safe (body σ) exactly (i.handler T (M σ.input) s) w := handler_safe hs w
  obtain ⟨hs', hl⟩ := htame.result hs hrun
  have hreveals := handler_reveals hd hP hb hi w _ w' hsafe hrun
  have hdescribes := handler_describes hd hP hptr hb hi hc w _ w' hsafe hrun
  have hiff (ρ : Input) : (E ρ ∧ ∀ q ∈ l, q.fact ρ) ↔ T.Follows σ E M i ρ :=
    and_congr_right fun hρ => hreveals.iff_event ρ hρ
  have hfacts := ((hiff σ.input).2 hdescribes.input).2
  refine ⟨fun q hq => (hreveals.sorted q hq).truthful (hfacts q hq) (hl q hq), hs', hiff, ?_⟩
  have hnext (ρ : Input) (hρ : T.Follows σ E M i ρ) : i.goesTo (M ρ) next =
      i.goesTo (M σ.input) next := by
    have hdirection := congrArg Event.taken hρ.2
    cases i with
    | jcc kind inv target =>
        have htaken : (M ρ).taken kind inv = (M σ.input).taken kind inv :=
          Option.some.inj hdirection
        simp only [Instruction.goesTo, htaken]
    | _ => rfl
  exact hdescribes.jump hP hptr hnext

end Describes

end Process

end Qsym
