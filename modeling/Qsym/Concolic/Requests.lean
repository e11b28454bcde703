import Qsym.Concolic.Relational
import Qsym.Concolic.Simulation
import Qsym.Instrument.Frame
import Qsym.Solver.Explore

/-!
# Qsym.Concolic.Requests

What a handler **tells the solver**: the address of the memory operand if it is symbolic, and the
condition of a jump if it is. So the requests hold of exactly the machines that show the same at the
instruction (`Reveals`), and they are ones that the solver takes. Everything else in the handlers is
silent.
-/

namespace Qsym

open Procedure Qsym.Expr X86
open SymbolicExprBuilder (chain)

/-- A condition or a bit vector, as the solver takes them. -/
def Request.Sorted {Reg : Type} : Request Reg → Prop
  | addJcc e _ _ => e.IsBool ∧ (e.isConcrete = false → e.core.isRelational = true)
  | addAddr e _ | addValue _ e _ => e.IsBV e.bits
  | solveAll _ e _ => e.IsBV e.bits ∧ e.isConcrete = false
  | visitBasicBlock _ | visitCall _ | visitRet _ => True

theorem Expr.Tame.getDeps {reads : Nat → Prop} {e : Expr} (h : e.Tame reads) :
    ∀ i ∈ e.getDeps, reads i :=
  over_iff_getDeps.1 (h.mono (fun _ => id) False.elim)

/-- It holds on the input, and reads bytes that are there. -/
theorem Request.Sorted.truthful {Reg : Type} {σ : Session} {q : Request Reg} (h : q.Sorted)
    (hfact : q.fact σ.input) (htame : q.Tame (· < σ.inputs.length)) : q.Truthful σ := by
  refine ⟨hfact, ?_⟩
  cases q with
  | addJcc e taken pc => exact ⟨h.1, htame.getDeps, h.2⟩
  | addAddr e addr => exact ⟨h, htame.getDeps⟩
  | addValue o e val => exact ⟨h, htame.getDeps⟩
  | solveAll o e val => exact ⟨h.1, htame.getDeps, h.2⟩
  | _ => trivial

/-- An address is a number of 64 bits. -/
theorem Request.addAddr_fact {Reg : Type} {e : Expr} (he : e.IsBV 64) (addr : Addr) (ρ : Input) :
    (addAddr e addr : Request Reg).fact ρ ↔ e.bv ρ 64 = addr := by
  show e.bv ρ e.bits = BitVec.ofNat e.bits addr.toNat ↔ _
  rw [he.bits, BitVec.ofNat_toNat, BitVec.setWidth_eq]

namespace Handler

open Stateful

variable {Reg α β : Type} {σ : Session} {ok : MethodCall → Prop} {p : Handler Reg α}
  {f : α → Handler Reg β}
variable {s : Shadow} {R : List (Request Reg) → Prop}

/-! ### Silent parts -/

namespace Silent

theorem forEach {g : Nat → Handler Reg Unit} (h : ∀ i, Silent σ ok (g i)) (is : List Nat) :
    Silent σ ok (Handler.forEach g is) := by
  induction is with
  | nil => exact .ret ()
  | cons i is ih => exact (h i).bind fun _ => ih

/-- The requests are none. -/
theorem logs (h : Silent σ ok p) (hR : R []) : Ensures (body σ) ok p s fun _ _ l => R l :=
  (h s).mono fun _ _ _ hl => hl ▸ hR

end Silent

/-- What follows is silent. -/
theorem logs_bind (h : Ensures (body σ) ok p s fun _ _ l => R l) (hf : ∀ a, Silent σ ok (f a)) :
    Ensures (body σ) ok (p >>= f) s fun _ _ l => R l := by
  refine Ensures.bind h fun a s' l hl => (hf a s').mono fun _ _ l' hl' => ?_
  rw [hl', List.append_nil]
  exact hl

end Handler

/-- The condition of a jump is relational. -/
theorem FlagHistory.Portrays.computeJcc_relates {input : Input} {E : Input → Prop} {h : FlagHistory}
    {flags : Input → Eflag → Bool} (hh : FlagHistory.Portrays input E flags h)
    (hE : E input) {σ : Session}
    (kind : JccKind) (inv : Bool) :
    Build.OptRelates σ ((FlagHistory.eflags h).computeJcc chain kind inv) := by
  cases hh with
  | same _ hforgotten =>
      rw [Eflags.computeJcc, FlagHistory.isValid_of_forgotten hforgotten]
      exact .ret (by rintro _ ⟨⟩)
  | set op _ hk hop => exact Qsym.computeJcc_relates (hop input hE) hk

namespace Process

open Handler Stateful

variable {Reg : Type} [DecidableEq Reg] (T : Process Reg) {σ : Session} {ok : MethodCall → Prop}

theorem getExprFromReg_silent (r : Reg) : Silent σ ok (T.getExprFromReg r) :=
  .onRegs _

theorem clearExprFromReg_silent (r : Reg) : Silent σ ok (T.clearExprFromReg r) := by
  unfold clearExprFromReg clearExprFromRegPart
  exact .onRegs _

omit [DecidableEq Reg] in
theorem getExprFromMem_silent (addr : Addr) (n : Nat) : Silent σ ok (T.getExprFromMem addr n) :=
  .onMemory _

theorem getAddrExpr_silent (base index : Reg) (disp : Addr) (scale : Nat) :
    Silent σ ok (T.getAddrExpr base index disp scale) := by
  have hreg (r : Reg) : Silent σ ok (T.getExprFromAddrReg r) := by
    unfold getExprFromAddrReg
    split
    next => exact T.getExprFromReg_silent r
    next => exact .ret none
  exact (hreg base).bind fun _ => (hreg index).bind fun _ => .lift _

omit [DecidableEq Reg] in
theorem moveByte_silent {get : Handler Reg (Option Expr)} {put : Option Expr → Handler Reg Unit}
    (hget : Silent σ ok get) (hput : ∀ x, Silent σ ok (put x)) : Silent σ ok (moveByte get put) :=
  hget.bind hput

omit [DecidableEq Reg] in
/-- An operand with an immediate. -/
theorem withImmediate_silent {p : Handler Reg (Option Expr)} (hp : Silent σ ok p) (imm : Addr) :
    Silent σ ok (do
      match ← p with
      | none => return none
      | some eDst => do
          let eSrc ← T.fixImmExpr none imm eDst.bits
          return some (eDst, eSrc)) := by
  refine hp.bind fun x => ?_
  cases x with
  | none => exact .ret none
  | some e => exact (Silent.lift _).bind fun _ => .ret _

theorem set_silent (o : Operand Reg) (x : Option Expr) : Silent σ ok (o.set T x) := by
  cases o with
  | reg r =>
      have hset : Silent σ ok (T.setExprToReg r x) := .onRegs _
      exact hset
  | mem addr n =>
      have hset : Silent σ ok (T.setExprToMem addr n x) := .onMemory _
      exact hset

variable {T} {s : Shadow} {R : List (Request Reg) → Prop}

/-- Only the operands of an extension make requests. -/
theorem instrumentMovx_logs {operand : Handler Reg (Option Expr)}
    (h : Ensures (body σ) ok operand s fun _ _ l => R l) (kind : ExtKind) (dst : Reg) :
    Ensures (body σ) ok (T.instrumentMovx operand kind dst) s fun _ _ l => R l := by
  refine logs_bind h fun x => ?_
  cases x with
  | none => exact .onRegs _
  | some e => exact (Silent.lift _).bind fun _ => .onRegs _

/-- Only the operands of a binary operation make requests. -/
theorem instrumentBinary_logs {operands : Handler Reg (Option (Expr × Expr))}
    (h : Ensures (body σ) ok operands s fun _ _ l => R l) (op : Alu) (o : Operand Reg) :
    Ensures (body σ) ok (T.instrumentBinary operands op.kind op.write fun x => o.set T x) s
      fun _ _ l => R l := by
  have hkind : Keeps σ ok (getOpKindBinary op.kind : Handler Reg OpKind) :=
    getOpKindBinary_keeps op.kind
  refine Ensures.bind (hkind s) fun k s₁ _ ⟨hs₁, hl⟩ => ?_
  rw [hs₁, hl]
  refine logs_bind h fun x => ?_
  cases x with
  | none => exact .onEflags _
  | some x =>
      have hres : Silent σ ok (T.doBinary op.kind k x.1 x.2) :=
        (Silent.lift _).bind fun _ => (Silent.onEflags _).bind fun _ => .ret _
      refine hres.bind fun res => ?_
      cases op.write with
      | true => exact set_silent T o (some res)
      | false => exact .ret ()

/-! ### What instructions tell -/

variable (T) in
/-- The requests hold of the machines that show the same at the instruction as the one that is
watched. -/
structure Reveals (σ : Session) (E : Input → Prop) (M : Input → Machine Reg) (i : Instruction Reg)
    (l : List (Request Reg)) : Prop where
  sorted : ∀ q ∈ l, q.Sorted
  iff_event : ∀ ρ, E ρ → ((∀ q ∈ l, q.fact ρ) ↔ i.event T (M ρ) = i.event T (M σ.input))

variable {E : Input → Prop} {M : Input → Machine Reg} {i : Instruction Reg}
  {m : MemRef Reg} {ρ : Input}

/-- All machines are at the same instruction, so they show the same if the address and the direction
are the same. -/
theorem Describes.event_iff (hd : T.Describes σ E M s) (hρ : E ρ) :
    i.event T (M ρ) = i.event T (M σ.input) ↔
      i.memRef.map (fun m => m.address T (M ρ)) = i.memRef.map (fun m => m.address T (M σ.input)) ∧
        i.direction (M ρ) = i.direction (M σ.input) := by
  simp only [Instruction.event, Event.mk.injEq, hd.pc_eq hρ, true_and]

/-- An instruction that has no memory operand and does not jump. -/
theorem Describes.reveals_nil (hd : T.Describes σ E M s) (hm : i.memRef = none)
    (hj : ∀ M, i.direction M = none) : T.Reveals σ E M i [] where
  sorted := nofun
  iff_event ρ hρ := by
    rw [hd.event_iff hρ, hm, hj, hj]
    simp

/-- The address of the memory operand goes to the solver if it is symbolic. -/
theorem makeAddrConcrete_reveals (hd : T.Describes σ E M s) (hP : T.pin.Documented)
    (hb : T.builder = chain)
    (hfits : m.Fits T) (hm : i.memRef = some m) (hj : ∀ M, i.direction M = none) :
    Ensures (body σ) exactly ((T.running (M σ.input)).makeAddrConcrete (m.arg T (M σ.input))) s
      fun _ _ l => T.Reveals σ E M i l := by
  have hevent (ρ : Input) (hρ : E ρ) : i.event T (M ρ) = i.event T (M σ.input) ↔
      m.address T (M ρ) = m.address T (M σ.input) := by
    rw [hd.event_iff hρ, hm, hj, hj]
    simp
  have haddr := (getAddrExpr_ensures (T := T.running (M σ.input)) hb hP hd.wellFormed hd.consistent
    (hfits.long (M σ.input))).and
      ((T.running (M σ.input)).getAddrExpr_silent m.base m.index m.disp m.scale s)
  refine Ensures.bind haddr ?_
  rintro x s₁ _ ⟨⟨_, hnone, hsome⟩, hl⟩
  subst hl
  cases x with
  | none =>
      refine .ret ⟨List.forall_mem_nil _, fun ρ hρ => ?_⟩
      rw [hevent ρ hρ]
      exact iff_of_true (List.forall_mem_nil _) (hd.address_eq (hnone.1 rfl) hρ)
  | some e =>
      have he := hsome e rfl
      have hsorted : (Request.addAddr e (m.address T (M σ.input)) : Request Reg).Sorted := by
        show e.IsBV e.bits
        rw [he.bits]
        exact he.isBV
      refine Yields.ret ⟨List.forall_mem_singleton.2 hsorted, fun ρ hρ => ?_⟩
      refine List.forall_mem_singleton.trans ((Request.addAddr_fact he.isBV _ ρ).trans ?_)
      have hvalue : e.bv ρ 64 = m.address T (M ρ) :=
        (he.bv ρ trivial).trans (hd.effectiveAddress_eq m hρ)
      rw [hevent ρ hρ, hvalue]
      exact Iff.rfl

/-- So it does for a source in memory. -/
theorem getExprFromMemSrc_reveals (hd : T.Describes σ E M s) (hP : T.pin.Documented)
    (hb : T.builder = chain)
    (hfits : m.Fits T) (hm : i.memRef = some m) (hj : ∀ M, i.direction M = none) :
    Ensures (body σ) exactly ((T.running (M σ.input)).getExprFromMemSrc (m.arg T (M σ.input))) s
      fun _ _ l => T.Reveals σ E M i l :=
  logs_bind (makeAddrConcrete_reveals hd hP hb hfits hm hj) fun _ => getExprFromMem_silent _ _ _

/-- The condition of a jump goes to the solver if it is symbolic. -/
theorem jcc_asks (hd : T.Describes σ E M s) (hb : T.builder = chain) (kind : JccKind) (inv : Bool)
    (target : Addr) :
    Ensures (body σ) exactly ((Instruction.jcc kind inv target).handler T (M σ.input)) s
      fun _ _ l =>
      ∃ x pc, (FlagHistory.Tells σ.input E M kind inv x ∧ OptTest x) ∧
        l = x.toList.map fun e => .addJcc e ((M σ.input).taken kind inv) pc := by
  obtain ⟨h, heq, hh⟩ := hd.flags
  have htold : Yields (body σ) exactly (s.eflags.computeJcc T.builder kind inv) fun x =>
      FlagHistory.Tells σ.input E M kind inv x ∧ OptTest x := by
    rw [heq, hb]
    exact ((hh.computeJcc hd.input).and (hh.computeJcc_relates hd.input kind inv)).weaken
      fun _ _ => trivial
  have hcond : Ensures (body σ) exactly ((T.running (M σ.input)).computeJcc kind inv) s fun x _ l =>
      (FlagHistory.Tells σ.input E M kind inv x ∧ OptTest x) ∧ l = [] := by
    refine Ensures.bind (P := fun s' _ l => s' = s ∧ l = []) (Ensures.get ⟨rfl, rfl⟩) ?_
    rintro _ _ _ ⟨hs, hl⟩
    rw [hs, hl]
    exact Ensures.lift htold fun x hx => ⟨hx, rfl⟩
  refine Ensures.bind hcond ?_
  rintro x _ _ ⟨hx, hl⟩
  rw [hl]
  cases x with
  | none => exact .ret ⟨none, 0, hx, rfl⟩
  | some e => exact Yields.ret ⟨some e, _, hx, rfl⟩

/-- So the requests hold of the machines that jump as the one that is watched. -/
theorem jcc_reveals (hd : T.Describes σ E M s) (hb : T.builder = chain)
    (kind : JccKind) (inv : Bool)
    (target : Addr) :
    Ensures (body σ) exactly ((Instruction.jcc kind inv target).handler T (M σ.input)) s
      fun _ _ l => T.Reveals σ E M (.jcc kind inv target) l := by
  have hevent (ρ : Input) (hρ : E ρ) : (Instruction.jcc kind inv target).event T (M ρ) =
      (Instruction.jcc kind inv target).event T (M σ.input) ↔
        (M ρ).taken kind inv = (M σ.input).taken kind inv := by
    rw [hd.event_iff hρ]
    simp [Instruction.memRef, Instruction.direction]
  refine (jcc_asks hd hb kind inv target).mono ?_
  rintro _ _ _ ⟨x, pc, ⟨htells, htest⟩, rfl⟩
  cases x with
  | none =>
      refine ⟨List.forall_mem_nil _, fun ρ hρ => ?_⟩
      rw [hevent ρ hρ]
      exact iff_of_true (List.forall_mem_nil _) (htells ρ hρ)
  | some e =>
      obtain ⟨hbool, htruth⟩ := htells
      refine ⟨List.forall_mem_singleton.2 ⟨hbool, core_of_isTest (htest e rfl)⟩, fun ρ hρ => ?_⟩
      refine List.forall_mem_singleton.trans ?_
      rw [hevent ρ hρ, ← htruth ρ hρ]
      exact Iff.rfl

section Instructions

variable (hd : T.Describes σ E M s) (hP : T.pin.Documented) (hb : T.builder = chain)
include hd hP hb

theorem mov_reveals {dst : Location Reg} {src : Source Reg}
    (hi : (Instruction.mov dst src).Fits T) :
    Ensures (body σ) exactly ((Instruction.mov dst src).handler T (M σ.input)) s
      fun _ _ l => T.Reveals σ E M (.mov dst src) l := by
  have hmove {get : Nat → Handler Reg (Option Expr)}
      {put : Nat → Option Expr → Handler Reg Unit} {n : Nat}
      (hget : ∀ i, Silent σ exactly (get i)) (hput : ∀ i x, Silent σ exactly (put i x)) :
      Silent σ exactly (forEach (fun i => moveByte (get i) (put i)) (List.range n)) :=
    .forEach (fun i => moveByte_silent (hget i) (hput i)) _
  cases dst with
  | reg dst =>
      cases src with
      | imm v =>
          have hclear : Silent σ exactly ((T.running (M σ.input)).clearExprFromReg dst) :=
            clearExprFromReg_silent _ dst
          exact hclear.logs (hd.reveals_nil rfl fun _ => rfl)
      | loc src =>
          cases src with
          | reg src =>
              exact (hmove (fun _ => .onRegs _) fun _ _ => .onRegs _).logs
                (hd.reveals_nil rfl fun _ => rfl)
          | mem m =>
              exact logs_bind (makeAddrConcrete_reveals hd hP hb hi.2.1.2 rfl fun _ => rfl)
                fun _ => hmove (fun _ => .onMemory _) fun _ _ => .onRegs _
  | mem m =>
      have haddr (src : Source Reg) : Ensures (body σ) exactly
          ((T.running (M σ.input)).makeAddrConcrete (m.arg T (M σ.input))) s
          fun _ _ l => T.Reveals σ E M (.mov (.mem m) src) l :=
        makeAddrConcrete_reveals hd hP hb hi.1.2 rfl fun _ => rfl
      cases src with
      | imm v => exact logs_bind (haddr _) fun _ => .onMemory _
      | loc src =>
          cases src with
          | reg src =>
              exact logs_bind (haddr _) fun _ => hmove (fun _ => .onRegs _) fun _ _ => .onMemory _
          | mem m' => exact Ensures.stop

theorem movx_reveals {kind : ExtKind} {dst : Reg} {src : Location Reg}
    (hi : (Instruction.movx kind dst src).Fits T) :
    Ensures (body σ) exactly ((Instruction.movx kind dst src).handler T (M σ.input)) s
      fun _ _ l => T.Reveals σ E M (.movx kind dst src) l := by
  cases src with
  | reg src =>
      have hsilent : Silent σ exactly ((T.running (M σ.input)).getExprFromReg src) :=
        getExprFromReg_silent _ src
      have hget := hsilent.logs (s := s)
          (hd.reveals_nil (i := .movx kind dst (.reg src)) rfl fun _ => rfl)
      cases kind <;> exact instrumentMovx_logs hget _ dst
  | mem m =>
      have hget := getExprFromMemSrc_reveals (i := .movx kind dst (.mem m)) hd hP hb hi.2.1.2
          rfl fun _ => rfl
      cases kind <;> exact instrumentMovx_logs hget _ dst

theorem alu_reveals {op : Alu} {dst : Location Reg} {src : Source Reg}
    (hi : (Instruction.alu op dst src).Fits T) :
    Ensures (body σ) exactly ((Instruction.alu op dst src).handler T (M σ.input)) s
      fun _ _ l => T.Reveals σ E M (.alu op dst src) l := by
  have hpair {p q : Handler Reg (Option Expr)} {f g : Option Expr → Build Expr}
      (hp : Silent σ exactly p)
      (hq : Silent σ exactly q) : Silent σ exactly (do
        let x ← p
        let y ← q
        (fixPair x y f g : Build _)) :=
    hp.bind fun _ => hq.bind fun _ => .lift _
  have hreg (r : Reg) : Silent σ exactly ((T.running (M σ.input)).getExprFromReg r) :=
    getExprFromReg_silent _ r
  have hmem (m : MemRef Reg) : Silent σ exactly
      ((T.running (M σ.input)).getExprFromMem (m.address T (M σ.input)) m.size) :=
    getExprFromMem_silent _ _ _
  cases dst with
  | reg dst =>
      cases src with
      | imm v =>
          exact instrumentBinary_logs ((withImmediate_silent _ (hreg dst) v).logs
            (hd.reveals_nil rfl fun _ => rfl)) op (.reg dst)
      | loc src =>
          cases src with
          | reg src =>
              have hoperands := (hpair (f := ((T.running (M σ.input)).fixRegExpr · dst))
                (g := ((T.running (M σ.input)).fixRegExpr · src)) (hreg dst) (hreg src)).logs
                  (s := s)
                (hd.reveals_nil (i := .alu op (.reg dst) (.loc (.reg src))) rfl fun _ => rfl)
              exact instrumentBinary_logs hoperands op (.reg dst)
          | mem m =>
              refine instrumentBinary_logs ?_ op (.reg dst)
              have hfirst := (get_gets (T := T.running (M σ.input)) hP hb (.reg dst) s hd.wellFormed
                hd.consistent).and (hreg dst s)
              refine Ensures.bind hfirst ?_
              rintro x s₁ _ ⟨⟨h₁, _, _⟩, hl⟩
              rw [hl]
              exact logs_bind (getExprFromMemSrc_reveals (hd.aged h₁) hP hb hi.2.1.2
                rfl fun _ => rfl)
                fun _ => .lift _
  | mem m =>
      have haddr (src : Source Reg) : Ensures (body σ) exactly
          ((T.running (M σ.input)).makeAddrConcrete (m.arg T (M σ.input))) s
          fun _ _ l => T.Reveals σ E M (.alu op (.mem m) src) l :=
        makeAddrConcrete_reveals hd hP hb hi.1.2 rfl fun _ => rfl
      cases src with
      | imm v =>
          exact instrumentBinary_logs
            (logs_bind (haddr _) fun _ => withImmediate_silent _ (hmem m) v) op
            (.mem (m.address T (M σ.input)) m.size)
      | loc src =>
          cases src with
          | reg src =>
              exact instrumentBinary_logs
                (logs_bind (haddr _) fun _ => hpair (hmem m) (hreg src)) op
                (.mem (m.address T (M σ.input)) m.size)
          | mem m' => exact Ensures.stop

/-- **What an instruction tells.** -/
theorem handler_reveals (hi : i.Fits T) :
    Ensures (body σ) exactly (i.handler T (M σ.input)) s fun _ _ l => T.Reveals σ E M i l := by
  cases i with
  | mov dst src => exact mov_reveals hd hP hb hi
  | movx kind dst src => exact movx_reveals hd hP hb hi
  | lea dst m =>
      have hlea : Silent σ exactly
          ((T.running (M σ.input)).instrumentLeaRegMem dst m.base m.index m.disp m.scale) :=
        (getAddrExpr_silent _ m.base m.index m.disp m.scale).bind fun x => .onRegs _
      exact hlea.logs (hd.reveals_nil rfl fun _ => rfl)
  | alu op dst src => exact alu_reveals hd hP hb hi
  | jcc kind inv target => exact jcc_reveals hd hb kind inv target

end Instructions

end Process

end Qsym
