import Qsym.Instrument.Source

/-!
# Qsym.Instrument.PackedShift

The **packed shifts**, with two operands and with three. The count is the one that the process
has: that of a register is concretised, that of memory is not. All bits of it are taken, up to
64, and then as many as a lane has.
-/

namespace Qsym

open Procedure X86 Bits
open SymbolicExprBuilder (chain)

/-- The operands: the first source is the destination, or a register of its own. -/
inductive PshiftForm (Reg : Type)
  | regReg (dst src : Reg)
  | regMem (dst : Reg) (m : MemArg Reg)
  | regImm (dst : Reg) (imm : Addr)
  | vex (form : VexShiftForm Reg)

namespace PshiftForm

variable {Reg : Type} [DecidableEq Reg] (T : Process Reg)

/-- The operands, the first source apart from the destination. -/
def operands : PshiftForm Reg → VexShiftForm Reg
  | regReg dst src => .regReg dst dst src
  | regMem dst m => .regMem dst dst m
  | regImm dst imm => .regImm dst dst imm
  | vex form => form

def handler (op : VexShift) (width : Nat) : PshiftForm Reg → Handler Reg Unit
  | regReg dst src => T.instrumentPshiftRegReg dst src op.kind width
  | regMem dst m => T.instrumentPshiftRegMem dst m op.kind width
  | regImm dst imm => T.instrumentPshiftRegImm dst imm op.kind width
  | vex form => form.handler T op width

end PshiftForm

namespace Process

open Handler Stateful

variable {Reg : Type} [DecidableEq Reg] {T : Process Reg} {σ : Session} {s : Shadow}
variable {v : ShadowMap Reg} {op : VexShift} {width : Nat} {form : VexShiftForm Reg}

section Handlers

variable (hP : T.pin.Documented) (hb : T.builder = chain) (hs : s.WellFormed)
  (hv : T.Consistent σ.input (T.peek s))

include hP hb in
/-- The lanes are shifted and the destination is written, or it is left to `clear`. -/
theorem shifted_achieves (hins : (VexIns.shift op width form).Handled T) (hdst : T.Tracked form.dst)
    {clear : Handler Reg Unit} {x : Option Expr} (hx : T.Fetched v (.reg form.src1) x)
    (hdep : x ≠ none → Depends T v (.reg form.src1))
    (hclear : x = none → Achieves (body σ) exactly clear s
      fun _ s' _ => ∀ k ∈ (Operand.reg form.dst).places T, T.peek s' k = none) :
    Achieves (body σ) exactly
      (match x with
        | none => clear
        | some eSrc1 => do
            let res ← T.doPshift form.dst op.kind (form.given T) width eSrc1
            T.setExprToReg form.dst (some res)) s
      fun _ s' _ => Provides T (Depends T v (.reg form.src1)) (T.peek s') (.reg form.dst) fun ρ =>
        op.computed width (form.src1Bv T v ρ) (VexShiftForm.taken width (form.given T)) := by
  obtain ⟨hop, hn, hsrc1⟩ := hins
  have hsize : T.pin.regSize form.dst ≤ 2 ^ 64 := (by decide : ∀ n ∈ [16, 32], n ≤ 2 ^ 64) _ hn
  cases x with
  | none =>
      refine (hclear rfl).mono fun _ s' _ hempty => .inl ⟨?_, hempty⟩
      rintro ⟨k, hk, hsym⟩
      exact hx k hk hsym
  | some e =>
      have ha : Expresses (T.pin.regSize form.dst * 8) (form.src1Bv T v) e :=
        (hx : Expresses _ _ e).setWidth (congrArg (· * 8) hsrc1)
      refine Achieves.lift_bind (pshift_expresses hb hop hn (form.given T) ha) fun res hres => ?_
      refine ((setExprToReg_returns hP hb hdst hres.isBV le_rfl).achieves
        (set_puts (o := .reg form.dst) hP hb hsize hres)).mono fun _ s' _ ⟨_, hputs⟩ => ?_
      exact .inr ⟨hdep nofun, hputs.shows⟩

include hP hb hs hv in
theorem readSrc1_achieves (hins : (VexIns.shift op width form).Handled T)
    (hsrc1 : T.Tracked form.src1) :
    Achieves (body σ) exactly (T.getExprFromReg form.src1) s fun x s₁ _ =>
      (T.Aged s s₁ ∧ T.Fetched (T.peek s) (.reg form.src1) x ∧
        (x = none → T.Empty (T.peek s₁) [.reg form.src1])) ∧
          (x ≠ none → Depends T (T.peek s) (.reg form.src1)) := by
  have hone : (Operand.reg form.src1).size T ≠ 1 := by
    have hn : T.pin.regSize form.dst ≠ 1 := (by decide : ∀ n ∈ [16, 32], n ≠ 1) _ hins.2.1
    exact fun h => hn (hins.2.2.symm.trans h)
  exact (getExprFromReg_returns hP hb hs hsrc1).achieves
    ((get_gets hP hb (.reg form.src1) s hs hv).and (get_attends hP hb hone s hs))

include hP hb hs hv in
/-- Something is done with the count before the destination is computed. -/
theorem fixed_provides (hins : (VexIns.shift op width form).Handled T) (hsrc1 : T.Tracked form.src1)
    (hdst : T.Tracked form.dst) {fix clear : Handler Reg Unit}
    (hfix : ∀ s₁ : Shadow, s₁.WellFormed → Achieves (body σ) exactly fix s₁
      fun _ s₂ _ => ∀ k, T.peek s₁ k = none → T.peek s₂ k = none)
    (hclear : ∀ s₂ : Shadow, (∀ k ∈ (Operand.reg form.src1).places T, T.peek s₂ k = none) →
      Achieves (body σ) exactly clear s₂
        fun _ s' _ => ∀ k ∈ (Operand.reg form.dst).places T, T.peek s' k = none) :
    Achieves (body σ) exactly (do
        let eSrc1 ← T.getExprFromReg form.src1
        fix
        computing (return eSrc1) clear fun eSrc1 => do
          let res ← T.doPshift form.dst op.kind (form.given T) width eSrc1
          T.setExprToReg form.dst (some res)) s
      fun _ s' _ => Provides T (Depends T (T.peek s) (.reg form.src1)) (T.peek s') (.reg form.dst)
        fun ρ => op.computed width (form.src1Bv T (T.peek s) ρ)
          (VexShiftForm.taken width (form.given T)) := by
  refine (readSrc1_achieves hP hb hs hv hins hsrc1).bind fun x s₁ _ ⟨⟨h₁, hx, hempty⟩, hdep⟩ => ?_
  refine (hfix s₁ h₁.wellFormed).bind fun _ s₂ _ hnone => ?_
  refine Achieves.bind (P := fun y s' _ => y = x ∧ s' = s₂) (.ret ⟨rfl, rfl⟩)
    fun y s' _ ⟨hy, hs'⟩ => ?_
  rw [hy, hs']
  have h := shifted_achieves (σ := σ) hP hb hins hdst hx hdep fun hx => hclear s₂ fun k hk =>
    hnone k (hempty hx _ List.mem_cons_self k hk)
  cases x <;> exact h

include hP hb hs hv in
/-- The count is an immediate. -/
theorem imm_provides (hins : (VexIns.shift op width form).Handled T) (hsrc1 : T.Tracked form.src1)
    (hdst : T.Tracked form.dst) {clear : Handler Reg Unit}
    (hclear : ∀ s₂ : Shadow, (∀ k ∈ (Operand.reg form.src1).places T, T.peek s₂ k = none) →
      Achieves (body σ) exactly clear s₂
        fun _ s' _ => ∀ k ∈ (Operand.reg form.dst).places T, T.peek s' k = none) :
    Achieves (body σ) exactly (computing (T.getExprFromReg form.src1) clear fun eSrc1 => do
        let res ← T.doPshift form.dst op.kind (form.given T) width eSrc1
        T.setExprToReg form.dst (some res)) s
      fun _ s' _ => Provides T (Depends T (T.peek s) (.reg form.src1)) (T.peek s') (.reg form.dst)
        fun ρ => op.computed width (form.src1Bv T (T.peek s) ρ)
          (VexShiftForm.taken width (form.given T)) := by
  refine (readSrc1_achieves hP hb hs hv hins hsrc1).bind fun x s₁ _ ⟨⟨h₁, hx, hempty⟩, hdep⟩ => ?_
  have h := shifted_achieves (σ := σ) hP hb hins hdst hx hdep fun hx => hclear s₁ fun k hk =>
    hempty hx _ List.mem_cons_self k hk
  cases x <;> exact h

include hP hb in
theorem concretizeReg_empties (hs : s.WellFormed) {r : Reg} (hr : T.Tracked r) :
    Achieves (body σ) exactly (T.concretizeReg r) s
      fun _ s' _ => ∀ k, T.peek s k = none → T.peek s' k = none :=
  (concretizeReg_returns hP hb hs hr).achieves
    ((concretizeReg_concretized hP hb hs r).mono fun _ _ _ h _ hk => h.eq_none hk)

include hP hb in
theorem makeAddrConcrete_empties (hs : s.WellFormed) {m : MemArg Reg} (hm : T.Addressed m) :
    Achieves (body σ) exactly (T.makeAddrConcrete m) s
      fun _ s' _ => ∀ k, T.peek s k = none → T.peek s' k = none :=
  (makeAddrConcrete_returns hP hb hs hm).achieves
    ((makeAddrConcrete_aged hP hb hs m).mono fun _ _ _ h _ hk => h.fades.eq_none hk)

include hP hb hs hv in
theorem pshift_provides {form : PshiftForm Reg}
    (hins : (VexIns.shift op width form.operands).Handled T)
    (hready : form.operands.Ready T) (hdst : T.Tracked form.operands.dst) :
    Achieves (body σ) exactly (form.handler T op width) s fun _ s' _ =>
      Provides T (Depends T (T.peek s) (.reg form.operands.src1)) (T.peek s')
        (.reg form.operands.dst)
        fun ρ => op.computed width (form.operands.src1Bv T (T.peek s) ρ)
          (VexShiftForm.taken width (form.operands.given T)) := by
  have hsrc1 := hready.src1
  have hvex (dst : Reg) (hdst : T.Tracked dst) (s₂ : Shadow) :
      Achieves (body σ) exactly (T.clearExprFromReg dst) s₂
        fun _ s' _ => ∀ k ∈ (Operand.reg dst).places T, T.peek s' k = none :=
    (clearExprFromReg_achieves hP hdst).mono fun _ _ _ h => h.2
  cases form with
  | regReg dst src =>
      exact fixed_provides hP hb hs hv hins hsrc1 hdst
        (fun s₁ hs₁ => concretizeReg_empties hP hb hs₁ hready.2) fun s₂ hempty => .ret hempty
  | regMem dst m =>
      exact fixed_provides hP hb hs hv hins hsrc1 hdst
        (fun s₁ hs₁ => makeAddrConcrete_empties hP hb hs₁ hready.2) fun s₂ hempty => .ret hempty
  | regImm dst imm => exact imm_provides hP hb hs hv hins hsrc1 hdst fun s₂ hempty => .ret hempty
  | vex form =>
      cases form with
      | regReg dst src1 src2 =>
          exact fixed_provides hP hb hs hv hins hsrc1 hdst
            (fun s₁ hs₁ => concretizeReg_empties hP hb hs₁ hready.2) fun s₂ _ => hvex dst hdst s₂
      | regMem dst src1 m =>
          exact fixed_provides hP hb hs hv hins hsrc1 hdst
            (fun s₁ hs₁ => makeAddrConcrete_empties hP hb hs₁ hready.2) fun s₂ _ => hvex dst hdst s₂
      | regImm dst src1 imm =>
          exact imm_provides hP hb hs hv hins hsrc1 hdst fun s₂ _ => hvex dst hdst s₂

include hP hb hs hv in
/-- **Packed shifts.** The handlers return. If the first source depends on the input then the
destination is that of the machine exactly where the count of the process, cut to the bits of a
lane, is the count of the machine, or both shift everything out; and else exactly where the machine
does not depend on the input either. -/
theorem instrumentPshift_shifts_iff {form : PshiftForm Reg}
    (hins : (VexIns.shift op width form.operands).Handled T) (hready : form.operands.Ready T)
    (hdst : T.Tracked form.operands.dst) :
    Achieves (body σ) exactly (form.handler T op width) s fun _ s' _ => ∀ ρ,
      Delivers σ.input T (T.peek s') (.reg form.operands.dst)
          ((VexIns.shift op width form.operands).machine T (T.peek s)) ρ ↔
        (Depends T (T.peek s) (.reg form.operands.src1) →
            (VexIns.shift op width form.operands).Agrees T (T.peek s) ρ) ∧
          (¬ Depends T (T.peek s) (.reg form.operands.src1) →
            (VexIns.shift op width form.operands).machine T (T.peek s) ρ =
              (VexIns.shift op width form.operands).machine T (T.peek s) σ.input) := by
  have hw : 0 < width ∧ width * 8 ∣ T.pin.regSize form.operands.dst * 8 :=
    (by decide : ∀ n ∈ [16, 32], ∀ w ∈ [2, 4, 8, 16], 0 < w ∧ w * 8 ∣ n * 8) _ hins.2.1 _ hins.1.mem
  refine (pshift_provides hP hb hs hv hins hready hdst).mono fun _ s' _ hprovides ρ => ?_
  refine (hprovides.delivers_iff ρ).trans (and_congr (imp_congr_right fun _ => ?_) Iff.rfl)
  exact op.computed_eq_machine_iff hw.1 hw.2

end Handlers

open X86Reg (process shadow)

/-- `PSRLW XMM1, 4` -/
def psrlwXmm : PshiftForm X86Reg :=
  .regImm .xmm1 4

/-- `PSRLW XMM1, 4`, where a byte is read from the input. -/
theorem instrumentPshift_psrlw : ∃ s' l w',
    Runs (body quietSession) (process.instrumentPshiftRegImm .xmm1 4 .lshr 2 (shadow [xmm1Cell]))
      (freshWorld 1) ((), s', l) w' ∧
      Delivers quietSession.input process (process.peek s') (.reg .xmm1)
        ((VexIns.shift .vpsrl 2 psrlwXmm.operands).machine process
          (process.peek (shadow [xmm1Cell])))
        fun _ => 80 := by
  have hins : (VexIns.shift .vpsrl 2 psrlwXmm.operands).Handled process :=
    ⟨(by decide : 2 ∈ [2, 4, 8, 16]), by decide, rfl⟩
  have htracked : process.Tracked .xmm1 := ⟨by decide +kernel, by decide⟩
  have h := instrumentPshift_shifts_iff (σ := quietSession) X86Reg.registers_documented rfl
    (X86Reg.shadow_init_wellFormed [xmm1Cell]) (X86Reg.shadow_consistent [xmm1Cell])
    hins htracked htracked
  obtain ⟨⟨_, s', l⟩, w', hr, _, hright⟩ := h (freshWorld 1) trivial
    (safe_exactly (n := 40) (by decide +kernel))
  refine ⟨s', l, w', hr, (hright _).2 ⟨fun _ => .inl (by decide), fun hnot => absurd ?_ hnot⟩⟩
  exact ⟨.reg .ymm1 0, by decide, .read 0, rfl, by decide⟩

/-- A process that has 65536 in `XMM0`. -/
def countProcess : Process X86Reg :=
  { process with context := fun r i => if r = .ymm0 ∧ i = 2 then 1 else 0 }

/-- `PSLLW XMM1, XMM0` -/
def psllwXmm : VexIns X86Reg :=
  .shift .vpsll 2 (PshiftForm.regReg .xmm1 .xmm0).operands

/-- `PSLLW XMM1, XMM0` by 65536 does not shift. -/
theorem instrumentPshift_psllw_not : ∃ s' l w',
    Runs (body quietSession) (countProcess.instrumentPshiftRegReg .xmm1 .xmm0 .shl 2
      (shadow [xmm1Cell]))
      (freshWorld 1) ((), s', l) w' ∧
      ¬ Delivers quietSession.input countProcess (countProcess.peek s') (.reg .xmm1)
        (psllwXmm.machine countProcess (countProcess.peek (shadow [xmm1Cell]))) fun _ => 5 := by
  have hp : ((countProcess.instrumentPshiftRegReg .xmm1 .xmm0 .shl 2 (shadow [xmm1Cell])).run
      (exec (body quietSession) 40) (freshWorld 1)).map (fun x =>
        (countProcess.peek x.1.2.1 (.reg .ymm1 0)).map fun e => e.value fun _ => 5) =
          some (some 5) := by
    decide +kernel
  obtain ⟨⟨⟨_, s', l⟩, w'⟩, hrun, hbyte⟩ := Option.map_eq_some_iff.1 hp
  refine ⟨s', l, w', ⟨40, hrun⟩, fun hright => ?_⟩
  obtain ⟨e, he, hval⟩ := Option.map_eq_some_iff.1 hbyte
  have he : countProcess.peek s' ((Operand.reg .xmm1).place countProcess 0) = some e := he
  have hzero : Bytes.byte (psllwXmm.machine countProcess (countProcess.peek (shadow [xmm1Cell]))
      fun _ => 5).toNat 0 = 0 := by
    decide +kernel
  have h := hright 0 (by decide)
  rw [he] at h
  exact absurd ((hval.symm.trans h).trans hzero) (by decide)

end Process

end Qsym
