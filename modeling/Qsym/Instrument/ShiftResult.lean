import Qsym.Instrument.Shift

/-!
# Qsym.Instrument.ShiftResult

The results of shifts and rotates. The machine masks the count to five bits, or six, and
the handler takes it modulo the width, which is the same for 32 and 64 bits and for
rotates. A count that is masked to the width or more shifts everything out on the machine,
and only a part of the operand here.
-/

namespace X86

open Qsym

variable {n k : Nat}

/-- Shifting by `c` leaves nothing but what a shift by the width leaves. -/
def ShiftsOut (c : Nat) (d : BitVec n) : ShiftKind → Prop
  | .shl => ∀ i < n - c, d.getLsbD i = false
  | .lshr => ∀ i < n, c ≤ i → d.getLsbD i = false
  | .ashr => ∀ i < n, c ≤ i → d.getLsbD i = d.msb
  | .rol | .ror => True

/-- The count modulo the width gives what the masked count gives. -/
def CountFits (kind : ShiftKind) (d : BitVec n) (k : Nat) : Prop :=
  maskedCount n k < n ∨ ShiftsOut (k % n) d kind

theorem maskedCount_mod (hn : n ∈ [8, 16, 32, 64]) : maskedCount n k % n = k % n := by
  simp only [List.mem_cons, List.not_mem_nil, or_false] at hn
  rcases hn with rfl | rfl | rfl | rfl <;> simp only [maskedCount, Nat.reduceEqDiff, if_true,
    if_false] <;> omega

theorem shiftLeft_eq_zero_iff {c : Nat} (d : BitVec n) :
    d <<< c = 0 ↔ ∀ i < n - c, d.getLsbD i = false := by
  constructor
  · intro h i hi
    have hbit := congrArg (BitVec.getLsbD · (i + c)) h
    simpa only [BitVec.getLsbD_shiftLeft, show i + c < n by omega, Nat.add_sub_cancel,
      show ¬ i + c < c by omega, decide_true, decide_false, Bool.not_false, Bool.true_and,
      BitVec.ofNat_eq_ofNat, BitVec.getLsbD_zero] using hbit
  · intro h
    apply BitVec.eq_of_getLsbD_eq
    intro i hi
    rw [BitVec.getLsbD_shiftLeft]
    by_cases hc : i < c
    · simp [hc]
    · simp [hc, h (i - c) (by omega)]

theorem ushiftRight_eq_zero_iff {c : Nat} (d : BitVec n) :
    d >>> c = 0 ↔ ∀ i < n, c ≤ i → d.getLsbD i = false := by
  constructor
  · intro h i _ hi
    have hbit := congrArg (BitVec.getLsbD · (i - c)) h
    simpa [Nat.add_sub_cancel' hi] using hbit
  · intro h
    apply BitVec.eq_of_getLsbD_eq
    intro i hi
    rw [BitVec.getLsbD_ushiftRight]
    by_cases hc : c + i < n
    · simp [h (c + i) hc (by omega)]
    · simp [BitVec.getLsbD_of_ge d (c + i) (by omega)]

/-- The sign fills everything up. -/
theorem sshiftRight_eq_fill_iff {c m : Nat} (d : BitVec n) (hm : n ≤ m) :
    d.sshiftRight m = d.sshiftRight c ↔ ∀ i < n, c ≤ i → d.getLsbD i = d.msb := by
  constructor
  · intro h i hi hc
    have hbit := congrArg (BitVec.getLsbD · (i - c)) h
    simp only [BitVec.getLsbD_sshiftRight, show ¬ m + (i - c) < n by omega,
      Nat.add_sub_cancel' hc, hi, if_true, if_false] at hbit
    simpa [show ¬ n ≤ i - c by omega] using hbit.symm
  · intro h
    apply BitVec.eq_of_getLsbD_eq
    intro i hi
    rw [BitVec.getLsbD_sshiftRight, BitVec.getLsbD_sshiftRight, if_neg (by omega)]
    by_cases hc : c + i < n
    · rw [if_pos hc, h (c + i) hc (by omega)]
    · rw [if_neg hc]

/-- Where the two counts give the same result. -/
theorem shift_maskedCount_iff (hn : n ∈ [8, 16, 32, 64]) (kind : ShiftKind) (d : BitVec n) :
    shift kind d (maskedCount n k) = shift kind d (k % n) ↔ CountFits kind d k := by
  by_cases hlt : maskedCount n k < n
  · rw [maskedCount_eq hn hlt]
    exact iff_of_true rfl (.inl hlt)
  · rw [CountFits, or_iff_right hlt]
    have hle : n ≤ maskedCount n k := not_lt.1 hlt
    cases kind with
    | shl =>
        rw [shift, shift, BitVec.shiftLeft_eq_zero hle, eq_comm]
        exact shiftLeft_eq_zero_iff d
    | lshr =>
        rw [shift, shift, BitVec.ushiftRight_eq_zero hle, eq_comm]
        exact ushiftRight_eq_zero_iff d
    | ashr => exact sshiftRight_eq_fill_iff d hle
    | rol =>
        refine iff_of_true ?_ trivial
        rw [shift, shift, ← BitVec.rotateLeft_mod_eq_rotateLeft, maskedCount_mod hn]
    | ror =>
        refine iff_of_true ?_ trivial
        rw [shift, shift, ← BitVec.rotateRight_mod_eq_rotateRight, maskedCount_mod hn]

end X86

namespace Qsym

open Procedure X86

namespace Process

open Handler Stateful
open SymbolicExprBuilder (chain)

variable {Reg : Type} [DecidableEq Reg] {T : Process Reg} {σ : Session} {s : Shadow}

/-- **Shift and rotate results.** For every form, operand and count, the result is that of the
machine if and only if `CountFits` holds of the operand and the count. -/
theorem instrumentShift_result_iff (hP : T.pin.Documented) (hb : T.builder = chain)
    (hcl : T.pin.regSize T.pin.regCl = 1) (hs : s.WellFormed) (hv : T.Consistent σ.input (T.peek s))
    (form : ShiftForm Reg) (hn : form.dst.size T ∈ [1, 2, 4, 8]) (hready : form.Ready T s)
    (kind : ShiftKind) :
    Achieves (body σ) exactly (form.handler T kind) s fun _ s' _ =>
      T.Idle (T.peek s) (T.peek s') (form.sources T) ∨ ∀ ρ,
        (T.Shows (T.peek s') form.dst ρ (shift kind (form.dst.bv T (T.peek s) ρ)
            (maskedCount (form.dst.size T * 8) (form.count T (T.peek s) ρ))) ↔
          CountFits kind (form.dst.bv T (T.peek s) ρ) (form.count T (T.peek s) ρ)) := by
  have hbits : form.dst.size T * 8 ∈ [8, 16, 32, 64] := by
    simp only [List.mem_cons, List.not_mem_nil, or_false] at hn ⊢
    omega
  refine (shift_achieves hP hb hcl hs hv form hn hready kind).mono fun _ s' _ h => ?_
  rcases h with ⟨-, hlets⟩ | ⟨-, hsets⟩
  · exact .inl hlets.idle
  · obtain ⟨v₁, -, hputs⟩ := hsets.puts
    refine .inr fun ρ => ?_
    rw [(hputs.shows ρ).iff_eq, eq_comm]
    exact shift_maskedCount_iff hbits kind _

open X86Reg (process registers shadow)

/-- `SHL AL, 1` -/
theorem instrumentShift_result_one : ∃ s' l w',
    Runs (body quietSession) (process.instrumentShiftRegImm .al 1 .shl (shadow [0])) (freshWorld 1)
      ((), s', l) w' ∧
      process.Shows (process.peek s') (.reg .al) (fun _ => 5) (10 : BitVec 8) := by
  have h := instrumentShift_result_iff X86Reg.registers_documented (T := process) rfl rfl
    (X86Reg.shadow_init_wellFormed [0]) (X86Reg.shadow_consistent [0]) (shlForm 1) (by decide)
    (X86Reg.tracked (by decide)) .shl
  obtain ⟨_, s', l, w', hr, hidle | hshows⟩ :=
    exists_run (n := 40) (w := freshWorld 1) h (by decide +kernel)
  · exact absurd hidle (X86Reg.shadow_not_idle List.mem_cons_self (by decide))
  · exact ⟨s', l, w', hr, (hshows fun _ => 5).2 (.inl (by decide))⟩

/-- `SHL AL, 9` of one: everything is shifted out, but one bit is shifted by one. -/
theorem instrumentShift_not_result : ∃ s' l w',
    Runs (body quietSession) (process.instrumentShiftRegImm .al 9 .shl (shadow [0])) (freshWorld 1)
      ((), s', l) w' ∧ process.peek s' (.reg .rax 0) ≠ none ∧
      ¬ process.Shows (process.peek s') (.reg .al) (fun _ => 1)
        (shift .shl (1 : BitVec 8) (maskedCount 8 9)) := by
  have h := shift_achieves X86Reg.registers_documented (T := process) rfl rfl
    (X86Reg.shadow_init_wellFormed [0]) (X86Reg.shadow_consistent [0]) (shlForm 9) (by decide)
    (X86Reg.tracked (by decide)) .shl
  obtain ⟨_, s', l, w', hr, ⟨hnot, -⟩ | ⟨-, hsets⟩⟩ :=
    exists_run (n := 40) (w := freshWorld 1) h (by decide +kernel)
  · exact absurd (shlForm_answers 9) hnot
  · obtain ⟨v₁, -, hputs⟩ := hsets.puts
    have hshows := hputs.shows fun _ => 1
    refine ⟨s', l, w', hr, ?_, fun hzero => ?_⟩
    · obtain ⟨e, he, -⟩ := hshows 0 (by decide)
      exact fun hnone => nomatch hnone.symm.trans he
    · exact absurd (congrArg BitVec.toNat (hshows.iff_eq.1 hzero)) (by decide +kernel)

end Process

end Qsym
