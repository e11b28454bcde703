import Qsym.Instrument.ShiftResult

/-!
# Qsym.Instrument.DoubleShift

`SHLD` and `SHRD`. The handler puts the operands next to each other and shifts them by the
count modulo 32, whatever the width, where the machine masks the count of an operand of 64
bits to six bits. And it lets go of the flags without a look at the count, which may be zero.
-/

namespace X86

open Qsym

variable {n k : Nat} {left : Bool}

/-- `SHLD` (`left`) or `SHRD`: the vacated bits come from `s`. -/
def doubleShift (left : Bool) (d s : BitVec n) (c : Nat) : BitVec n :=
  if left then d <<< c ||| s >>> (n - c) else d >>> c ||| s <<< (n - c)

/-- The operands next to each other. -/
def chained (left : Bool) (d s : BitVec n) : BitVec (n + n) :=
  if left then d ++ s else s ++ d

/-- Where bit `j` of the result comes from. -/
def taken (left : Bool) (n c j : Nat) : Nat :=
  if left then n + j - c else j + c

/-- The count modulo 32 takes the bits that the masked count does. -/
def DoubleCountFits (left : Bool) (d s : BitVec n) (k : Nat) : Prop :=
  n = 64 → 32 ≤ k % 64 → ∀ j < n,
    (chained left d s).getLsbD (taken left n (k % 64) j) =
      (chained left d s).getLsbD (taken left n (k % 32) j)

theorem getLsbD_doubleShift (d s : BitVec n) {c j : Nat} (hc : c ≤ n) (hj : j < n) :
    (doubleShift left d s c).getLsbD j = (chained left d s).getLsbD (taken left n c j) := by
  cases left with
  | true =>
      simp only [doubleShift, chained, taken, if_true, BitVec.getLsbD_or, BitVec.getLsbD_shiftLeft,
        BitVec.getLsbD_ushiftRight, BitVec.getLsbD_append, hj, decide_true, Bool.true_and]
      by_cases h : j < c
      · rw [if_pos (by omega), decide_eq_true h, show n - c + j = n + j - c by omega]
        simp
      · rw [if_neg (by omega), decide_eq_false h, BitVec.getLsbD_of_ge s _ (by omega),
          show n + j - c - n = j - c by omega]
        simp
  | false =>
      simp only [doubleShift, chained, taken, Bool.false_eq_true, if_false, BitVec.getLsbD_or,
        BitVec.getLsbD_shiftLeft, BitVec.getLsbD_ushiftRight, BitVec.getLsbD_append,
          hj, decide_true,
        Bool.true_and]
      by_cases h : j + c < n
      · rw [if_pos h, decide_eq_true (show j < n - c by omega), Nat.add_comm c j]
        simp
      · rw [if_neg h, decide_eq_false (show ¬ j < n - c by omega),
          BitVec.getLsbD_of_ge d _ (by omega),
          show j + c - n = j - (n - c) by omega]
        simp

/-- What the handler computes of the operands next to each other. -/
def shiftedHalf (left : Bool) (d s : BitVec n) (c : Nat) : BitVec n :=
  if left then (BinaryKind.shl.apply (d ++ s) (BitVec.ofNat (n + n) c)).extractLsb' n n
  else (BinaryKind.lshr.apply (s ++ d) (BitVec.ofNat (n + n) c)).extractLsb' 0 n

theorem shiftedHalf_eq (d s : BitVec n) {c : Nat} (hc : c ≤ n) :
    shiftedHalf left d s c = doubleShift left d s c := by
  have hnat : (BitVec.ofNat (n + n) c).toNat = c := by
    rw [BitVec.toNat_ofNat, Nat.mod_eq_of_lt]
    exact (hc.trans (Nat.le_add_left n n)).trans_lt Nat.lt_two_pow_self
  apply BitVec.eq_of_getLsbD_eq
  intro j hj
  rw [getLsbD_doubleShift d s hc hj, shiftedHalf]
  cases left with
  | true =>
      simp only [if_true, BitVec.getLsbD_extractLsb', BinaryKind.apply, BitVec.shiftLeft_eq', hnat,
        BitVec.getLsbD_shiftLeft, taken, chained]
      simp [hj, show ¬ n + j < c by omega, show n + j < n + n by omega]
  | false =>
      simp only [Bool.false_eq_true, if_false, BitVec.getLsbD_extractLsb', BinaryKind.apply,
        BitVec.ushiftRight_eq', hnat, BitVec.getLsbD_ushiftRight, taken, chained]
      simp [hj, Nat.add_comm]

/-- Where the two counts give the same result. -/
theorem doubleShift_maskedCount_iff (hn : n ∈ [16, 32, 64]) (d s : BitVec n) :
    doubleShift left d s (maskedCount n k) = doubleShift left d s (k % 32) ↔
      DoubleCountFits left d s k := by
  by_cases h64 : n = 64
  · subst h64
    rw [maskedCount, if_pos rfl, DoubleCountFits, forall_prop_of_true rfl]
    by_cases h32 : 32 ≤ k % 64
    · rw [forall_prop_of_true h32]
      constructor
      · intro h j hj
        rw [← getLsbD_doubleShift d s (by omega) hj, h, getLsbD_doubleShift d s (by omega) hj]
      · intro h
        apply BitVec.eq_of_getLsbD_eq
        intro j hj
        rw [getLsbD_doubleShift d s (by omega) hj, h j hj, getLsbD_doubleShift d s (by omega) hj]
    · rw [show k % 64 = k % 32 by omega]
      exact iff_of_true rfl fun h => absurd h (by omega)
  · rw [maskedCount, if_neg h64]
    exact iff_of_true rfl fun h => absurd h h64

end X86

namespace Qsym

open Procedure X86

/-- The handlers of double shifts, by their operands. -/
inductive DoubleShiftForm (Reg : Type)
  | regRegImm (dst src : Reg) (imm : Addr)
  | regRegCl (dst src : Reg)
  | memRegImm (m : MemArg Reg) (src : Reg) (imm : Addr)
  | memRegCl (m : MemArg Reg) (src : Reg)

namespace DoubleShiftForm

open Process (Mapped)

variable {Reg : Type} [DecidableEq Reg] (T : Process Reg)

def handler (left : Bool) : DoubleShiftForm Reg → Handler Reg Unit
  | regRegImm dst src imm => T.instrumentShiftdRegRegImm dst src imm left
  | regRegCl dst src => T.instrumentShiftdRegRegCl dst src left
  | memRegImm m src imm => T.instrumentShiftdMemRegImm m src imm left
  | memRegCl m src => T.instrumentShiftdMemRegCl m src left

def operands : DoubleShiftForm Reg → Handler Reg (Option (Expr × Expr × Expr))
  | regRegImm dst src imm => T.getExprFromRegRegImm dst src imm
  | regRegCl dst src => T.getExprFromRegRegReg dst src T.pin.regCl
  | memRegImm m src imm => T.getExprFromMemRegImm m src imm
  | memRegCl m src => T.getExprFromMemRegReg m src T.pin.regCl

def dst : DoubleShiftForm Reg → Operand Reg
  | regRegImm dst _ _ | regRegCl dst _ => .reg dst
  | memRegImm m _ _ | memRegCl m _ => .mem m.addr m.size

def src : DoubleShiftForm Reg → Reg
  | regRegImm _ src _ | regRegCl _ src | memRegImm _ src _ | memRegCl _ src => src

/-- The operands that are read. -/
def sources : DoubleShiftForm Reg → List (Operand Reg)
  | regRegImm dst src _ => [.reg dst, .reg src]
  | regRegCl dst src => [.reg dst, .reg src, .reg T.pin.regCl]
  | memRegImm m src _ => [.mem m.addr m.size, .reg src]
  | memRegCl m src => [.mem m.addr m.size, .reg src, .reg T.pin.regCl]

/-- The count, for an input. -/
def count (v : ShadowMap Reg) (ρ : Input) : DoubleShiftForm Reg → Nat
  | regRegImm _ _ imm | memRegImm _ _ imm => imm.toNat
  | regRegCl _ _ | memRegCl _ _ => ((Operand.reg T.pin.regCl).bv T v ρ).toNat

/-- The value of the source, which has the size of the destination. -/
def srcBv (v : ShadowMap Reg) (form : DoubleShiftForm Reg) (ρ : Input) :
    BitVec (form.dst.size T * 8) :=
  ((Operand.reg form.src).bv T v ρ).setWidth _

/-- The operands can be read, and the destination can be written. -/
def Ready (s : Shadow) : DoubleShiftForm Reg → Prop
  | regRegImm dst src _ => T.Tracked dst ∧ T.Tracked src
  | regRegCl dst src => T.Tracked dst ∧ T.Tracked src ∧ T.Tracked T.pin.regCl
  | memRegImm m src _ => T.Addressed m ∧ T.Tracked src ∧ Mapped s.memory m.addr m.size
  | memRegCl m src =>
      T.Addressed m ∧ T.Tracked src ∧ T.Tracked T.pin.regCl ∧ Mapped s.memory m.addr m.size

variable {T} (form : DoubleShiftForm Reg) {s : Shadow}

variable {form} in
theorem Ready.writable (h : form.Ready T s) : T.Writable s form.dst := by
  cases form with
  | regRegImm => exact h.1
  | regRegCl => exact h.1
  | memRegImm => exact h.2.2
  | memRegCl => exact h.2.2.2

theorem handler_eq (left : Bool) : form.handler T left =
    T.instrumentShiftd (form.operands T) left (form.dst.size T * 8)
      (fun x => form.dst.set T x) := by
  cases form <;> rfl

end DoubleShiftForm

namespace Process

open Handler Stateful FlagHistory
open SymbolicExprBuilder (chain)

variable {Reg : Type} [DecidableEq Reg] {T : Process Reg} {σ : Session} {s : Shadow}
variable {n m : Nat} {dst src count : Expr} {d u : Input → BitVec n} {k : Input → BitVec m}
variable {left : Bool}

theorem shiftdExpr_builds (left : Bool) (hd : Expresses n d dst) (hs : Expresses n u src)
    (hc : Expresses m k count) (hm : m ≤ n) (hn : 3 ≤ n) :
    Builds σ exactly (chain.shiftdExpr left dst src count n)
      (Expresses n fun ρ => shiftedHalf left (d ρ) (u ρ) ((k ρ).toNat % 32)) := by
  have hmod : 32 < 2 ^ (n + n) :=
    Nat.lt_of_lt_of_le (by decide : 32 < 2 ^ 6) (Nat.pow_le_pow_right Nat.two_pos (by omega))
  have hcount : Builds σ exactly (chain.normalizeShiftCount count (n * 2) 32)
      (Expresses (n + n) fun ρ => BitVec.ofNat (n + n) ((k ρ).toNat % 32)) := by
    rw [Nat.mul_two]
    exact normalizeShiftCount_builds hc (by omega) (by omega) hmod
  refine Total.bind hcount fun c hc => ?_
  cases left with
  | true =>
      refine Total.bind (hd.concat_builds hs) fun e he => ?_
      refine Total.bind (he.binary_builds (k := .shl) nofun rfl hc) fun e' he' => ?_
      exact he'.extract_builds (by omega) (by omega)
  | false =>
      refine Total.bind (hs.concat_builds hd) fun e he => ?_
      refine Total.bind (he.binary_builds (k := .lshr) nofun rfl hc) fun e' he' => ?_
      exact he'.extract_builds (by omega) (by omega)

/-! ### The handlers -/

/-- The operands, with a count that is the one of the form as far as the handler goes. -/
structure DoubleShiftGiven (T : Process Reg) (v : ShadowMap Reg) (form : DoubleShiftForm Reg)
    (x : Expr × Expr × Expr) : Prop where
  dst : Expresses (form.dst.size T * 8) (form.dst.bv T v) x.1
  src : Expresses (form.dst.size T * 8) (form.srcBv T v) x.2.1
  count : ∃ m, m ≤ form.dst.size T * 8 ∧ ∃ k : Input → BitVec m, Expresses m k x.2.2 ∧
    ∀ ρ, (k ρ).toNat % 32 = form.count T v ρ % 32

/-- A masked count of zero leaves every flag as it was. -/
def LeavesFlags (σ : Session) (ρ : Input) (h : FlagHistory) (n k : Nat) (e : Eflags) : Prop :=
  maskedCount n k = 0 → ∀ f, f ≠ .af → Leaves σ ρ h e f

/-- No flag is known where it has to be left. -/
def KnowsNoFlag (h : FlagHistory) (n k : Nat) : Prop :=
  maskedCount n k = 0 → ∀ f, f ≠ .af → (eflags h).validSet.has f = false

theorem leavesFlags_iff {ρ : Input} {h : FlagHistory} {c : Nat} : LeavesFlags σ ρ h n c
    ((eflags h).invalidate (getOpKindShift (if left then .shl else .lshr))) ↔
      KnowsNoFlag h n c := by
  refine imp_congr_right fun _ => forall₂_congr fun f hf => leaves_invalidate_iff ?_
  cases left <;> cases f <;> first | rfl | exact absurd rfl hf

section Handlers

variable (hP : T.pin.Documented) (hb : T.builder = SymbolicExprBuilder.chain)
  (hcl : T.pin.regSize T.pin.regCl = 1) (hs : s.WellFormed) (hv : T.Consistent σ.input (T.peek s))
  (form : DoubleShiftForm Reg) (hn : form.dst.size T ∈ [2, 4, 8])
  (hsrc : T.pin.regSize form.src = form.dst.size T)

include hP hb hs hn

theorem doubleShift_reads (hready : form.Ready T s) :
    Returns (body σ) exactly (form.operands T) s := by
  have hpos : 0 < form.dst.size T := by
    simp only [List.mem_cons, List.not_mem_nil, or_false] at hn
    omega
  cases form with
  | regRegImm dst src imm => exact getExprFromRegRegImm_returns hP hb hs hready.1 hready.2 imm
  | regRegCl dst src =>
      exact getExprFromRegRegReg_returns hP hb hs hready.1 hready.2.1 hready.2.2
  | memRegImm m src imm => exact getExprFromMemRegImm_returns hP hb hs hready.1 hpos hready.2.1 imm
  | memRegCl m src =>
      exact getExprFromMemRegReg_returns hP hb hs hready.1 hpos hready.2.1 hready.2.2.1

include hcl hv hsrc

theorem doubleShift_fetches : Fetches σ T (form.operands T) s (form.sources T)
    (DoubleShiftGiven T (T.peek s) form) := by
  have hpos : 2 ≤ form.dst.size T := by
    simp only [List.mem_cons, List.not_mem_nil, or_false] at hn
    omega
  have hwidth {e : Expr} (he : Expresses (T.pin.regSize form.src * 8)
      ((Operand.reg form.src).bv T (T.peek s)) e) :
      Expresses (form.dst.size T * 8) (form.srcBv T (T.peek s)) e :=
    he.setWidth (by rw [hsrc])
  have himm (imm : Addr) (hc : ∀ ρ, form.count T (T.peek s) ρ = imm.toNat) (x : Expr × Expr × Expr)
      (hx : PairImmOf T (T.peek s) form.dst (.reg form.src) imm x) :
      DoubleShiftGiven T (T.peek s) form x := by
    refine ⟨hx.1.1, hwidth hx.1.2, _, le_rfl, _, hx.2, fun ρ => ?_⟩
    have hdvd : (32 : Nat) ∣ 2 ^ (form.dst.size T * 8) :=
      Nat.pow_dvd_pow 2 (show 5 ≤ form.dst.size T * 8 by omega)
    rw [BitVec.toNat_ofNat, hc, Nat.mod_mod_of_dvd _ hdvd]
  have hreg (hc : ∀ ρ, form.count T (T.peek s) ρ =
      ((Operand.reg T.pin.regCl).bv T (T.peek s) ρ).toNat)
      (x : Expr × Expr × Expr)
      (hx : TripleOf T (T.peek s) form.dst (.reg form.src) (.reg T.pin.regCl) x) :
      DoubleShiftGiven T (T.peek s) form x := by
    refine ⟨hx.1, hwidth hx.2.1, _, ?_, _, hx.2.2, fun ρ => by rw [hc]⟩
    rw [Operand.size, hcl]
    omega
  have hmem : 0 < form.dst.size T := by omega
  cases form with
  | regRegImm dst src imm =>
      exact (getExprFromRegRegImm_fetches hP hb hs hv dst src imm).mono (himm imm fun _ => rfl)
  | regRegCl dst src =>
      exact (getExprFromRegRegReg_fetches hP hb hs hv dst src _).mono (hreg fun _ => rfl)
  | memRegImm m src imm =>
      exact (getExprFromMemRegImm_fetches hP hb hs hv hmem src imm).mono (himm imm fun _ => rfl)
  | memRegCl m src =>
      exact (getExprFromMemRegReg_fetches hP hb hs hv hmem src _).mono (hreg fun _ => rfl)

/-- The flags are let go of, and the result is a half of what was shifted. -/
theorem doubleShift_computed (hready : form.Ready T s) (left : Bool) :
    Achieves (body σ) exactly (form.handler T left) s fun _ s' _ =>
      s'.eflags = s.eflags.invalidate (getOpKindShift (if left then .shl else .lshr)) ∧
        T.Computed (T.peek s) (T.peek s') (form.sources T) form.dst fun ρ =>
          shiftedHalf left (form.dst.bv T (T.peek s) ρ) (form.srcBv T (T.peek s) ρ)
            (form.count T (T.peek s) ρ % 32) := by
  have hsize : 2 ≤ form.dst.size T ∧ form.dst.size T ≤ 2 ^ 64 := by
    simp only [List.mem_cons, List.not_mem_nil, or_false] at hn
    omega
  rw [form.handler_eq]
  refine computing_achieves (doubleShift_fetches hP hb hcl hs hv form hn hsrc)
    (doubleShift_reads hP hb hs form hn hready) (fun s₁ h₁ hidle => ?_)
    fun s₁ x h₁ ⟨hdst, hsrc, m, hm, k, hk, hmod⟩ => ?_
  · refine Achieves.mono (onEflags_achieves _) fun _ s' _ hs' => ?_
    subst hs'
    exact ⟨congrArg (Eflags.invalidate · _) h₁.eflags, .inl hidle⟩
  · have hexpr := shiftdExpr_builds (σ := σ) left hdst hsrc hk hm (by omega)
    let kind := getOpKindShift (if left then .shl else .lshr)
    refine Achieves.bind (P := fun res s₂ _ => s₂ =
      { s₁ with eflags := s₁.eflags.invalidate kind } ∧
      Expresses (form.dst.size T * 8) (fun ρ => shiftedHalf left (form.dst.bv T (T.peek s) ρ)
        (form.srcBv T (T.peek s) ρ) ((k ρ).toNat % 32)) res) ?_ fun res s₂ _ ⟨h₂, hres⟩ => ?_
    · exact Achieves.lift_bind (hb ▸ hexpr) fun res hres => onEflags_bind (.ret ⟨rfl, hres⟩)
    · have hwritable : T.Writable s₂ form.dst := by
        rw [h₂]
        exact hready.writable.of_samePages h₁.pages
      refine Achieves.mono (set_achieves hP hb hwritable hsize.2 hres) fun _ s' _ ⟨heq, hputs⟩ => ?_
      subst h₂
      refine ⟨heq.trans (congrArg (Eflags.invalidate · _) h₁.eflags), .inr ⟨_, h₁.fades, ?_⟩⟩
      simp only [hmod] at hputs
      exact hputs

/-- **Double shifts.** For every form and every count for which the result is defined, the
result is that of the machine if and only if `DoubleCountFits` holds; and a masked count of
zero leaves the flags if and only if none is known. -/
theorem instrumentShiftd_result_iff (hready : form.Ready T s) (left : Bool) {h : FlagHistory}
    (hflags : s.eflags = eflags h) : Achieves (body σ) exactly (form.handler T left) s fun _ s' _ =>
      (T.Idle (T.peek s) (T.peek s') (form.sources T) ∨ ∀ ρ,
        let k := form.count T (T.peek s) ρ
        maskedCount (form.dst.size T * 8) k ≤ form.dst.size T * 8 →
          (T.Shows (T.peek s') form.dst ρ (doubleShift left (form.dst.bv T (T.peek s) ρ)
              (form.srcBv T (T.peek s) ρ) (maskedCount (form.dst.size T * 8) k)) ↔
            DoubleCountFits left (form.dst.bv T (T.peek s) ρ) (form.srcBv T (T.peek s) ρ) k)) ∧
      ∀ ρ, LeavesFlags σ ρ h (form.dst.size T * 8) (form.count T (T.peek s) ρ) s'.eflags ↔
        KnowsNoFlag h (form.dst.size T * 8) (form.count T (T.peek s) ρ) := by
  have hbits : form.dst.size T * 8 ∈ [16, 32, 64] := by
    simp only [List.mem_cons, List.not_mem_nil, or_false] at hn ⊢
    omega
  refine (doubleShift_computed hP hb hcl hs hv form hn hsrc hready left).mono
    fun _ s' _ ⟨heq, hcomp⟩ => ?_
  constructor
  · refine hcomp.imp_right fun ⟨v₁, _, hputs⟩ ρ => ?_
    intro k hdef
    have hle : form.count T (T.peek s) ρ % 32 ≤ form.dst.size T * 8 := by
      by_cases h64 : form.dst.size T * 8 = 64
      · omega
      · change maskedCount (form.dst.size T * 8) (form.count T (T.peek s) ρ) ≤ _ at hdef
        rwa [maskedCount, if_neg h64] at hdef
    rw [(hputs.shows ρ).iff_eq, eq_comm, shiftedHalf_eq _ _ hle]
    exact doubleShift_maskedCount_iff hbits _ _
  · intro ρ
    rw [heq, hflags]
    exact leavesFlags_iff

end Handlers

open X86Reg (process registers shadow)

/-- `SHLD RAX, RBX, imm` -/
def shldForm (imm : Addr) : DoubleShiftForm X86Reg :=
  .regRegImm .rax .rbx imm

/-- `SHLD RAX, RBX, 8` -/
theorem instrumentShiftd_result_eight : ∃ s' l w',
    Runs (body quietSession) (process.instrumentShiftdRegRegImm .rax .rbx 8 true (shadow [0]))
      (freshWorld 1) ((), s', l) w' ∧
      process.Shows (process.peek s') (.reg .rax) (fun _ => 5) (1280 : BitVec 64) ∧
      LeavesFlags quietSession (fun _ => 5) [] 64 8 s'.eflags := by
  have h := instrumentShiftd_result_iff X86Reg.registers_documented (T := process) rfl
    rfl (X86Reg.shadow_init_wellFormed [0]) (X86Reg.shadow_consistent [0]) (shldForm 8) (by decide)
    rfl ⟨X86Reg.tracked (by decide), X86Reg.tracked (by decide)⟩ true (h := []) rfl
  obtain ⟨_, s', l, w', hr, hidle | hshows, hleaves⟩ :=
    exists_run (n := 40) (w := freshWorld 1) h (by decide +kernel)
  · exact absurd hidle (X86Reg.shadow_not_idle List.mem_cons_self (by decide))
  · exact ⟨s', l, w', hr, (hshows (fun _ => 5) (by decide)).2 fun _ h => absurd h (by decide),
      (hleaves fun _ => 5).2 fun h => absurd h (by decide)⟩

/-- `SHLD RAX, RBX, 32` of one: nothing is shifted. -/
theorem instrumentShiftd_not_result : ∃ s' l w',
    Runs (body quietSession) (process.instrumentShiftdRegRegImm .rax .rbx 32 true (shadow [0]))
      (freshWorld 1) ((), s', l) w' ∧ process.peek s' (.reg .rax 0) ≠ none ∧
      ¬ process.Shows (process.peek s') (.reg .rax) (fun _ => 1)
        (doubleShift true (1 : BitVec 64) 0 (maskedCount 64 32)) := by
  have h := doubleShift_computed X86Reg.registers_documented (T := process) rfl rfl
    (X86Reg.shadow_init_wellFormed [0]) (X86Reg.shadow_consistent [0]) (shldForm 32) (by decide) rfl
    ⟨X86Reg.tracked (by decide), X86Reg.tracked (by decide)⟩ true
  obtain ⟨_, s', l, w', hr, -, hidle | ⟨v₁, -, hputs⟩⟩ :=
    exists_run (n := 40) (w := freshWorld 1) h (by decide +kernel)
  · exact absurd hidle (X86Reg.shadow_not_idle List.mem_cons_self (by decide))
  · have hshows := hputs.shows fun _ => 1
    refine ⟨s', l, w', hr, ?_, fun hshifted => ?_⟩
    · obtain ⟨e, he, -⟩ := hshows 0 (by decide)
      exact fun hnone => nomatch hnone.symm.trans he
    · exact absurd (congrArg BitVec.toNat (hshows.iff_eq.1 hshifted)) (by decide +kernel)

end Process

end Qsym
