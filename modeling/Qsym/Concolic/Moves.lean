import Qsym.Concolic.Simulation
import Qsym.Instrument.Atomic

/-!
# Qsym.Concolic.Moves

Moves, extensions and `LEA` keep the shadow describing the machines. Moves go byte by byte, so the
shadow of the destination is that of the source; the others compute an expression of the value, or
let go of the destination if nothing is symbolic and the value is the same on all inputs.
-/

namespace Qsym

open Procedure Qsym.Expr X86
open SymbolicExprBuilder (chain)

namespace Process

open Handler Stateful

variable {Reg : Type} [DecidableEq Reg] {T : Process Reg} {σ : Session} {ok : MethodCall → Prop}
variable {E : Input → Prop} {M : Input → Machine Reg} {s s' : Shadow} {o o' : Operand Reg}

/-! ### Moves -/

/-- The bytes of an operand came to another one. -/
theorem Describes.of_copy (hd : T.Describes σ E M s) (hP : T.pin.Documented)
    (ho : o.size T ≤ 2 ^ 64)
    (hsize : o'.size T = o.size T)
    (hreg : ∀ addr addr' n n', ¬ (o = .mem addr n ∧ o' = .mem addr' n'))
    (hapart : ∀ k ∈ T.pointerPlaces, k ∉ o.written T) (hs' : s'.WellFormed)
    (heflags : s'.eflags = s.eflags)
    (hcopy : T.peek s' = Bytes.copy
      ((List.range (o.size T)).map fun i => (o.place T i, o'.place T i))
      (clear (T.peek s) (o.upper T))) :
    T.Describes σ E (fun ρ => (M ρ).write T o (((M ρ).read T o').setWidth _)) s' := by
  obtain ⟨hplace, hupper, hother⟩ := copies_place hP ho hsize hreg hcopy
  exact hd.write hapart hs' heflags (hd.bytes.copies hP ho hsize hplace hupper hother)
    fun k hk hnone => (hother k hk).trans hnone

/-- An operand was cleared, and written with the same value on all inputs. -/
theorem Describes.of_cleared (hd : T.Describes σ E M s) (hP : T.pin.Documented)
    (ho : o.size T ≤ 2 ^ 64)
    (hapart : ∀ k ∈ T.pointerPlaces, k ∉ o.written T) (hs' : s'.WellFormed)
    (heflags : s'.eflags = s.eflags)
    (hnone : ∀ k ∈ o.written T, T.peek s' k = none) (hother : ∀ k, k ∉ o.written T →
      T.peek s' k = T.peek s k)
    {w : Input → BitVec (o.size T * 8)} (hw : ∀ ρ, E ρ → w ρ = w σ.input) :
    T.Describes σ E (fun ρ => (M ρ).write T o (w ρ)) s' :=
  hd.write hapart hs' heflags (hd.bytes.write_none hP ho hnone hother hw)
    fun k hk hk' => (hother k hk).trans hk'

/-- An operand was written with an expression of its value. -/
theorem Describes.of_puts (hd : T.Describes σ E M s) (hP : T.pin.Documented)
    (ho : o.size T ≤ 2 ^ 64)
    (hapart : ∀ k ∈ T.pointerPlaces, k ∉ o.written T) (hs' : s'.WellFormed)
    (heflags : s'.eflags = s.eflags)
    {u w : Input → BitVec (o.size T * 8)} (hputs : T.Puts (T.peek s) (T.peek s') o u)
    (hw : ∀ ρ, E ρ → u ρ = w ρ) : T.Describes σ E (fun ρ => (M ρ).write T o (w ρ)) s' :=
  hd.write hapart hs' heflags (hd.bytes.puts hP ho hputs hw)
    fun k hk hk' => (hputs.other k hk).trans hk'

section Moves

variable (hP : T.pin.Documented) (hptr : T.pin.Points) (hb : T.builder = chain)
  {dst src : Location Reg} (hd : T.Describes σ E M s)
include hP hd

/-- The loops of moves, between the operands of the machine `M₀`. -/
theorem forEach_copies_operands (hdst : dst.Fits T) (hsrc : src.Fits T)
    (hsize : src.size T = dst.size T)
    {M₀ : Machine Reg} {p : Handler Reg Unit} (hkeeps : KeepsEflags σ exactly p)
    (hbytes : KeepsBytes σ exactly p)
    (hreg : ∀ m m', ¬ (dst = .mem m ∧ src = .mem m')) (hptr : T.pin.Points)
    (hcopies : Ensures (body σ) exactly p s fun _ s' _ => T.peek s' =
      Bytes.copy ((List.range (dst.size T)).map fun i =>
        ((dst.operand T M₀).place T i, (src.operand T M₀).place T i))
        (clear (T.peek s) ((dst.operand T M₀).upper T))) :
    Ensures (body σ) exactly p s fun _ s' _ => T.Describes σ E (fun ρ =>
      (M ρ).write T (dst.operand T M₀) (((M ρ).read T (src.operand T M₀)).setWidth _)) s' := by
  refine (hcopies.and ((hkeeps s).and (hbytes s hd.wellFormed))).mono
    fun _ s' _ ⟨hcopy, heflags, hs'⟩ => ?_
  refine hd.of_copy hP ?_ ?_ ?_ (hdst.apart hptr M₀) hs' heflags ?_
  · rw [Location.size_operand]
    exact hdst.size_le
  · rw [Location.size_operand, Location.size_operand, hsize]
  · cases dst <;> cases src <;> simp_all [Location.operand]
  · rw [Location.size_operand]
    exact hcopy

/-- The address was given to the solver, and then the bytes were copied. -/
theorem after_makeAddrConcrete (hb : T.builder = chain) (m : MemRef Reg) {p : Handler Reg Unit}
    {Q : Shadow → Prop} (h : ∀ s₁, T.Describes σ E M s₁ → Ensures (body σ) exactly p s₁
      fun _ s' _ => Q s') :
    Ensures (body σ) exactly (do
      (T.running (M σ.input)).makeAddrConcrete (m.arg T (M σ.input))
      p) s fun _ s' _ => Q s' :=
  Ensures.bind (makeAddrConcrete_aged (T := T.running (M σ.input)) hP hb hd.wellFormed _)
    fun _ s₁ _ h₁ => h s₁ (hd.aged h₁)

/-- **Moves.** -/
theorem mov_describes (hptr : T.pin.Points) (hb : T.builder = chain) {src : Source Reg}
    (hi : (Instruction.mov dst src).Fits T) :
    Ensures (body σ) exactly ((Instruction.mov dst src).handler T (M σ.input)) s fun _ s' _ =>
      T.Describes σ (T.Follows σ E M (.mov dst src))
        (fun ρ => (Instruction.mov dst src).effect T (M ρ)) s' := by
  have hd := hd.follows (.mov dst src)
  obtain ⟨hdst, hsrc⟩ := hi
  have hcongr (ρ : Input) (hρ : T.Follows σ E M (.mov dst src) ρ) :
      dst.operand T (M ρ) = dst.operand T (M σ.input) := by
    refine hρ.operand fun m hm => ?_
    subst hm
    rfl
  cases src with
  | imm v =>
      have hcleared (s₁ s' : Shadow) (h₁ : T.Describes σ (T.Follows σ E M (.mov dst (.imm v))) M s₁)
          (hs' : s'.WellFormed) (heflags : s'.eflags = s₁.eflags)
          (h : T.Cleared s₁ (· ∈ (dst.operand T (M σ.input)).dropped T) s') :
          T.Describes σ (T.Follows σ E M (.mov dst (.imm v)))
            (fun ρ => (Instruction.mov dst (.imm v)).effect T (M ρ)) s' := by
        have hmem := Operand.mem_dropped_iff hP (dst.operand T (M σ.input))
        refine (h₁.of_cleared hP ?_ (hdst.apart hptr _) hs' heflags
          (fun k hk => h.empty k ((hmem k).2 hk))
          (fun k hk => h.same k (mt (hmem k).1 hk)) (w := fun _ => v.setWidth _)
            fun _ _ => rfl).congr ?_
        · rw [Location.size_operand]
          exact hdst.size_le
        · intro ρ hρ
          have heffect : (Instruction.mov dst (.imm v)).effect T (M ρ) = _ :=
            Instruction.effect_mov (hcongr ρ hρ)
          exact heffect.symm
      cases dst with
      | reg r =>
          refine (clearExprFromReg_cleared (T := T) hP r).mono ?_
          exact fun _ s' _ ⟨_, heflags, hc, hs'⟩ => hcleared s s' hd (hs' hd.wellFormed) heflags hc
      | mem m =>
          refine after_makeAddrConcrete hP hd hb m fun s₁ h₁ => ?_
          refine (clearExprFromMem_cleared (T := T) (m.address T (M σ.input)) m.size).mono ?_
          exact fun _ s' _ ⟨_, heflags, hc, hs'⟩ => hcleared s₁ s' h₁ (hs' h₁.wellFormed) heflags hc
  | loc src =>
      by_cases hreg : ∀ m m', ¬ (dst = .mem m ∧ src = .mem m')
      swap
      · push Not at hreg
        obtain ⟨m, m', rfl, rfl⟩ := hreg
        exact Ensures.stop
      have hcongr' (ρ : Input) (hρ : T.Follows σ E M (.mov dst (.loc src)) ρ) :
          src.operand T (M ρ) = src.operand T (M σ.input) := by
        refine hρ.operand fun m hm => ?_
        subst hm
        cases dst with
        | reg r => rfl
        | mem m' => exact absurd ⟨rfl, rfl⟩ (hreg m' m)
      have hmoved {p : Handler Reg Unit} (h : Ensures (body σ) exactly p s fun _ s' _ =>
          T.Describes σ (T.Follows σ E M (.mov dst (.loc src))) (fun ρ =>
            (M ρ).write T (dst.operand T (M σ.input))
              (((M ρ).read T (src.operand T (M σ.input))).setWidth _)) s') :
          Ensures (body σ) exactly p s fun _ s' _ =>
            T.Describes σ (T.Follows σ E M (.mov dst (.loc src)))
            (fun ρ => (Instruction.mov dst (.loc src)).effect T (M ρ)) s' := by
        refine h.mono fun _ s' _ h' => h'.congr fun ρ hρ => ?_
        have heffect : (Instruction.mov dst (.loc src)).effect T (M ρ) = _ :=
          Instruction.effect_mov (hcongr ρ hρ)
        rw [heffect, Source.value_loc (hcongr' ρ hρ)]
      have hpos := hdst.size_pos
      cases dst with
      | reg dst =>
          have hle := Pin.Documented.view_le hP dst
          cases src with
          | reg src =>
              have hle' := Pin.Documented.view_le hP src
              have hsize : T.pin.regSize src = T.pin.regSize dst := hsrc.2
              refine hmoved (forEach_copies_operands hP hd hdst hsrc.1 hsrc.2 ?_ ?_ hreg hptr ?_)
              · exact forEach_keepsEflags
                  (fun i => (KeepsEflags.onRegs _).bind fun _ => .onRegs _) _
              · exact moveBytes_keepsBytes (fun i => getExprFromRegByte_givesByte src _)
                  (fun i x hx => setExprToRegByte_keepsBytes dst _ hx) _
              · exact doMovRegReg_copies hP (n := T.pin.regSize dst) hpos hle (hsize ▸ hle')
                  (fun _ => rfl) s
          | mem m =>
              refine hmoved (after_makeAddrConcrete hP hd hb m fun s₁ h₁ => ?_)
              refine forEach_copies_operands hP h₁ hdst hsrc.1 hsrc.2 ?_ ?_ hreg hptr ?_
              · exact forEach_keepsEflags
                  (fun i => (KeepsEflags.onMemory _).bind fun _ => .onRegs _) _
              · exact moveBytes_keepsBytes (fun i => getExprFromMemByte_givesByte _)
                  (fun i x hx => setExprToRegByte_keepsBytes dst _ hx) _
              · have hsize : (Location.reg dst).size T = m.size := hsrc.2.symm
                rw [hsize] at hpos ⊢
                exact movMemToReg_copies hP hpos (hsize ▸ hle) s₁
      | mem m =>
          cases src with
          | reg src =>
              have hle := Pin.Documented.view_le hP src
              have hsize : T.pin.regSize src = m.size := hsrc.2
              refine hmoved (after_makeAddrConcrete hP hd hb m fun s₁ h₁ => ?_)
              refine forEach_copies_operands hP h₁ hdst hsrc.1 hsrc.2 ?_ ?_ hreg hptr ?_
              · exact forEach_keepsEflags
                  (fun i => (KeepsEflags.onRegs _).bind fun _ => .onMemory _) _
              · exact moveBytes_keepsBytes (fun i => getExprFromRegByte_givesByte src _)
                  (fun i x hx => setExprToMemByte_keepsBytes _ hx) _
              · refine (movRegToMem_copies hpos ?_ s₁).mono fun _ s' _ hcopy => ?_
                · show _ + m.size ≤ T.pin.regSize (T.pin.regFullRegName src)
                  rw [← hsize]
                  exact hle
                · exact hcopy.trans (congrArg _ (clear_nil _).symm)
          | mem m' => exact absurd ⟨rfl, rfl⟩ (hreg m m')

/-! ### Extensions and `LEA` -/

include hptr in
/-- A register got no expression, and all machines wrote the same to it. -/
theorem setExprToReg_none_describes {r : Reg} (hr : (Location.reg r).Fits T)
    {w : Input → BitVec ((Operand.reg r).size T * 8)} (hw : ∀ ρ, E ρ → w ρ = w σ.input) :
    Ensures (body σ) exactly (T.setExprToReg r none) s fun _ s' _ =>
      T.Describes σ E (fun ρ => (M ρ).write T (.reg r) (w ρ)) s' := by
  have hmem := Operand.mem_dropped_iff hP (.reg r)
  refine ((setExprToReg_written hP r none).and
    (setExprToReg_none_keepsBytes r s hd.wellFormed)).mono ?_
  intro _ s' _ ⟨⟨_, heflags, hwritten⟩, hs'⟩
  exact hd.of_cleared (o := .reg r) hP hr.size_le (hr.apart hptr (M σ.input)) hs' heflags
    (fun k hk => hwritten.empty rfl k ((hmem k).2 hk))
      (fun k hk => hwritten.same k (mt (hmem k).1 hk)) hw

include hptr hb in
/-- A register got an expression of what was written to it, cut off. -/
theorem setExprToReg_describes {r : Reg} (hr : (Location.reg r).Fits T) {n : Nat}
    {u : Input → BitVec n}
    {e : Expr} (he : Expresses n u e) (hn : T.pin.regSize r * 8 ≤ n)
    (h1 : T.pin.regSize r = 1 → n = 8)
    {w : Input → BitVec ((Operand.reg r).size T * 8)} (hw : ∀ ρ, E ρ → (u ρ).setWidth _ = w ρ) :
    Ensures (body σ) exactly (T.setExprToReg r (some e)) s fun _ s' _ =>
      T.Describes σ E (fun ρ => (M ρ).write T (.reg r) (w ρ)) s' := by
  have hregs : Yields (body σ) exactly (T.pin.setExprToReg T.builder s.regs r (some e)) _ :=
    hb ▸ Pin.setExprToReg_low_holdBytes hP he.isBV hn h1 he.trimmed hd.wellFormed.regs
  have hbytes : Ensures (body σ) exactly (T.setExprToReg r (some e)) s _ :=
    onRegs_unit (f := fun s => T.pin.setExprToReg T.builder s r (some e)) hregs
  refine ((setExprToReg_puts_low hP hb he hn h1).and hbytes).mono ?_
  intro _ s' _ ⟨⟨heflags, hputs⟩, _, hmemory, _, hs'⟩
  exact hd.of_puts (o := .reg r) hP hr.size_le (hr.apart hptr (M σ.input))
    ⟨hs', hmemory ▸ hd.wellFormed.memory⟩ heflags
    hputs hw

include hptr hb in
/-- A source is extended. -/
theorem instrumentMovx_describes {r : Reg} (hr : (Location.reg r).Fits T)
    {p : Handler Reg (Option Expr)}
    (hp : Gets σ (T.running (M σ.input)) p o) (ho : o.size T ≤ T.pin.regSize r) (kind : ExtKind) :
    Ensures (body σ) exactly ((T.running (M σ.input)).instrumentMovx p kind r) s fun _ s' _ =>
      T.Describes σ E (fun ρ => (M ρ).write T (.reg r) (kind.apply _ ((M ρ).read T o))) s' := by
  refine computing_ensures (fetches_get hd.wellFormed hd.consistent hp) (fun s₁ h₁ hidle => ?_)
    fun s₁ e h₁ he => ?_
  · refine setExprToReg_none_describes hP hptr (hd.aged h₁) hr fun ρ hρ =>
      congrArg (kind.apply _) ?_
    exact hd.bytes.read_eq_of_not_symbolic hd.input hρ fun k hk =>
      hidle.not_symbolic List.mem_cons_self hk
  · have hext : Yields (body σ) exactly (T.builder.create (.ext kind e (T.pin.regSize r * 8))) _ :=
      hb ▸ he.ext kind (Nat.mul_le_mul_right 8 ho)
    refine Ensures.lift_bind hext fun e' he' => ?_
    refine setExprToReg_describes hP hptr hb (hd.aged h₁) hr he' (Nat.le_refl _) ?_ fun ρ hρ => ?_
    · intro h1
      rw [h1]
    · exact (BitVec.setWidth_eq _).trans (congrArg (kind.apply _) (hd.bytes.bv_eq hρ o))

include hptr hb in
/-- **Extensions.** -/
theorem movx_describes {kind : ExtKind} {r : Reg} (hi : (Instruction.movx kind r src).Fits T) :
    Ensures (body σ) exactly ((Instruction.movx kind r src).handler T (M σ.input)) s fun _ s' _ =>
      T.Describes σ (T.Follows σ E M (.movx kind r src))
        (fun ρ => (Instruction.movx kind r src).effect T (M ρ)) s' := by
  have hd := hd.follows (.movx kind r src)
  obtain ⟨hr, hsrc, hle⟩ := hi
  have hcongr (ρ : Input) (hρ : T.Follows σ E M (.movx kind r src) ρ) :
      src.operand T (M ρ) = src.operand T (M σ.input) := by
    refine hρ.operand fun m hm => ?_
    subst hm
    rfl
  have hmovx {p : Handler Reg (Option Expr)}
      (hp : Gets σ (T.running (M σ.input)) p (src.operand T (M σ.input))) :
      Ensures (body σ) exactly ((T.running (M σ.input)).instrumentMovx p kind r) s fun _ s' _ =>
        T.Describes σ (T.Follows σ E M (.movx kind r src))
          (fun ρ => (Instruction.movx kind r src).effect T (M ρ)) s' := by
    have ho : (src.operand T (M σ.input)).size T ≤ T.pin.regSize r := by rwa [Location.size_operand]
    refine (instrumentMovx_describes hP hptr hb hd hr hp ho kind).mono fun _ s' _ h' => ?_
    exact h'.congr fun ρ hρ => (Instruction.effect_movx (hcongr ρ hρ)).symm
  cases src with
  | reg src =>
      have hget := hmovx (get_gets (T := T.running (M σ.input)) hP hb (.reg src))
      cases kind <;> exact hget
  | mem m =>
      have hget := hmovx (getExprFromMemSrc_gets (T := T.running (M σ.input)) hP hb
          (m.arg T (M σ.input)))
      cases kind <;> exact hget

include hptr hb in
/-- **`LEA`.** -/
theorem lea_describes {r : Reg} {m : MemRef Reg} (hi : (Instruction.lea r m).Fits T) :
    Ensures (body σ) exactly ((Instruction.lea r m).handler T (M σ.input)) s fun _ s' _ =>
      T.Describes σ E (fun ρ => (Instruction.lea r m).effect T (M ρ)) s' := by
  obtain ⟨hr, hne, hm⟩ := hi
  have hsize : T.pin.regSize r ∈ [1, 2, 4, 8] := hr.1
  simp only [List.mem_cons, List.not_mem_nil, or_false] at hsize
  have hlong := hm.long (M σ.input)
  refine Ensures.bind (getAddrExpr_ensures (T := T.running (M σ.input)) hb hP hd.wellFormed
    hd.consistent hlong) fun x s₁ _ ⟨h₁, hnone, hsome⟩ => ?_
  cases x with
  | none =>
      refine setExprToReg_none_describes hP hptr (hd.aged h₁) hr fun ρ hρ => congrArg _ ?_
      exact hd.address_eq (hnone.1 rfl) hρ
  | some e =>
      refine setExprToReg_describes hP hptr hb (hd.aged h₁) hr (hsome e rfl)
        (by omega) (by omega) ?_
      exact fun ρ hρ => congrArg _ (hd.effectiveAddress_eq m hρ)

end Moves

end Process

end Qsym
