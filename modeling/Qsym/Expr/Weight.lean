import Qsym.Expr.Value

/-!
# Qsym.Expr.Weight

A **size that survives slicing**. The arithmetic rewriting moves constants
outwards, takes sums apart at zero bits and narrows products; what it never does
is make more operations than there were. `weightIn e i b` counts the operations
below the bits `[i, i + b)` of `e`: concatenations and extractions pass the range
on, an arithmetic node counts in full as soon as the range is not empty, and
anything else weighs nothing.

Cutting a range in two can count an operation twice (`weightIn_append_le`), except
below a bit that is structurally zero, where no operation is cut (`weightIn_cut`).
-/

namespace Qsym.Expr

/-- The number of nodes. -/
def size : Expr → Nat
  | bool _ _ | constant _ _ _ | read _ => 1
  | concat _ l r => l.size + r.size + 1
  | extract _ e _ _ => e.size + 1
  | ext _ _ e _ => e.size + 1
  | unary _ _ e => e.size + 1
  | binary _ _ l r => l.size + r.size + 1
  | compare _ _ l r => l.size + r.size + 1
  | ite _ c t f => c.size + t.size + f.size + 1

/-- What one node of a binary kind weighs. -/
def kindWeight : BinaryKind → Nat
  | .add | .sub => 2
  | .mul | .udiv | .urem => 1
  | _ => 0

/-- The operations below the bits `[i, i + b)`. -/
def weightIn : Expr → Nat → Nat → Nat
  | concat _ l r, i, b =>
      l.weightIn (i - r.bits) (b - (r.bits - i)) + r.weightIn i (min b (r.bits - i))
  | extract _ e j _, i, b => e.weightIn (j + i) b
  | ext _ _ e _, i, b => e.weightIn i (min b (e.bits - i))
  | binary _ k l r, _, b =>
      if b = 0 ∨ kindWeight k = 0 then 0
      else kindWeight k + l.weightIn 0 l.bits + r.weightIn 0 r.bits
  | _, _, _ => 0

/-- The operations of a whole expression. -/
def weight (e : Expr) : Nat :=
  e.weightIn 0 e.bits

@[simp] theorem weight_constant (ref n : Nat) (v : BitVec n) :
    (constant ref n v).weight = 0 := rfl

theorem weight_of_isConstant {e : Expr} (h : e.isConstant = true) : e.weight = 0 := by
  obtain ⟨_, _, _, rfl⟩ := isConstant_iff.1 h
  rfl

theorem weight_concat (ref : Nat) (l r : Expr) :
    (concat ref l r).weight = l.weight + r.weight := by
  simp [weight, weightIn, bits]

theorem weight_binary {ref : Nat} {k : BinaryKind} {l r : Expr} (h : 0 < l.bits)
    (hk : kindWeight k ≠ 0) :
    (binary ref k l r).weight = kindWeight k + l.weight + r.weight := by
  simp [weight, weightIn, bits, hk, Nat.pos_iff_ne_zero.1 h]

@[simp] theorem weightIn_zero (e : Expr) (i : Nat) : e.weightIn i 0 = 0 := by
  induction e generalizing i with
  | concat _ l r ihl ihr => simp [weightIn, ihl, ihr]
  | extract _ e j _ ih => exact ih _
  | ext _ _ e _ ih => simpa [weightIn] using ih i
  | _ => simp [weightIn]

/-- Cutting a range counts at least what the range counts. -/
theorem weightIn_append_le (e : Expr) (i a b : Nat) :
    e.weightIn i (a + b) ≤ e.weightIn i a + e.weightIn (i + a) b := by
  induction e generalizing i a b with
  | concat _ l r ihl ihr =>
      have hl := ihl (i - r.bits) (a - (r.bits - i)) (a + b - (r.bits - i) - (a - (r.bits - i)))
      have hr := ihr i (min a (r.bits - i)) (min (a + b) (r.bits - i) - min a (r.bits - i))
      simp only [weightIn]
      by_cases h : r.bits - i ≤ a
      · rw [show a - (r.bits - i) + (a + b - (r.bits - i) - (a - (r.bits - i)))
            = a + b - (r.bits - i) by omega,
          show i - r.bits + (a - (r.bits - i)) = i + a - r.bits by omega,
          show a + b - (r.bits - i) - (a - (r.bits - i)) = b by omega] at hl
        rw [show min a (r.bits - i) = r.bits - i by omega,
          show min (a + b) (r.bits - i) = r.bits - i by omega,
          show r.bits - (i + a) = 0 by omega] at *
        simp only [Nat.sub_zero, Nat.min_zero, weightIn_zero, Nat.add_zero]
        omega
      · rw [show a - (r.bits - i) = 0 by omega] at *
        rw [show min a (r.bits - i) = a by omega,
          show min (a + b) (r.bits - i) - a = min b (r.bits - (i + a)) by omega,
          show a + min b (r.bits - (i + a)) = min (a + b) (r.bits - i) by omega] at hr
        rw [show min a (r.bits - i) = a by omega,
          show a + b - (r.bits - i) = b - (r.bits - (i + a)) by omega,
          show i + a - r.bits = i - r.bits by omega, weightIn_zero]
        omega
  | extract _ e j _ ih =>
      simp only [weightIn]
      rw [← Nat.add_assoc]
      exact ih (j + i) a b
  | ext _ _ e _ ih =>
      simp only [weightIn]
      have := ih i (min a (e.bits - i)) (min (a + b) (e.bits - i) - min a (e.bits - i))
      by_cases h : e.bits - i ≤ a
      · rw [show min (a + b) (e.bits - i) = min a (e.bits - i) by omega]
        exact Nat.le_add_right ..
      · rw [show min a (e.bits - i) = a by omega,
          show min (a + b) (e.bits - i) - a = min b (e.bits - (i + a)) by omega,
          show a + min b (e.bits - (i + a)) = min (a + b) (e.bits - i) by omega] at this
        rwa [show min a (e.bits - i) = a by omega]
  | binary _ k l r =>
      simp only [weightIn]
      split <;> split <;> split <;> omega
  | _ => exact Nat.zero_le _

/-- A part of a range counts at most what the range counts. -/
theorem weightIn_mono (e : Expr) {i b i' b' : Nat} (hi : i ≤ i') (hb : i' + b' ≤ i + b) :
    e.weightIn i' b' ≤ e.weightIn i b := by
  induction e generalizing i b i' b' with
  | concat _ l r ihl ihr =>
      simp only [weightIn]
      by_cases h0 : b' = 0
      · simp [h0]
      refine Nat.add_le_add ?_ ?_
      · by_cases h : b' - (r.bits - i') = 0
        · simp [h]
        · exact ihl (by omega) (by omega)
      · by_cases h : min b' (r.bits - i') = 0
        · simp [h]
        · exact ihr (by omega) (by omega)
  | extract _ e j _ ih => exact ih (by omega) (by omega)
  | ext _ _ e _ ih =>
      simp only [weightIn]
      by_cases h : min b' (e.bits - i') = 0
      · simp [h]
      · exact ih (by omega) (by omega)
  | binary _ k l r =>
      simp only [weightIn]
      by_cases h : b' = 0
      · simp [h]
      · simp [h, show b ≠ 0 by omega]
  | _ => exact Nat.zero_le _

/-- Cutting right below a zero bit counts nothing twice. -/
theorem weightIn_cut {e : Expr} {i a b : Nat} (h : e.isZeroBit (i + a) = true) :
    e.weightIn i a + e.weightIn (i + a) b ≤ e.weightIn i (a + b) := by
  induction e generalizing i a b with
  | concat _ l r ihl ihr =>
      simp only [isZeroBit] at h
      simp only [weightIn]
      by_cases hc : r.bits ≤ i + a
      -- the zero bit is in `l`, and so is the cut
      · rw [if_pos hc] at h
        have hab : min (a + b) (r.bits - i) = min a (r.bits - i) := by omega
        rw [hab, show r.bits - (i + a) = 0 by omega, Nat.min_zero, weightIn_zero, Nat.sub_zero]
        have hi : i + a - r.bits = i - r.bits + (a - (r.bits - i)) := by omega
        have := ihl (b := b) (hi ▸ h)
        rw [← hi, show a - (r.bits - i) + b = a + b - (r.bits - i) by omega] at this
        omega
      -- the zero bit is in `r`, and so is the cut
      · rw [if_neg hc] at h
        have := ihr (b := min b (r.bits - (i + a))) h
        rw [show min a (r.bits - i) = a by omega, show a - (r.bits - i) = 0 by omega,
          show a + b - (r.bits - i) = b - (r.bits - (i + a)) by omega,
          show i + a - r.bits = i - r.bits by omega,
          show min (a + b) (r.bits - i) = a + min b (r.bits - (i + a)) by omega, weightIn_zero]
        omega
  | constant => exact Nat.zero_le _
  | _ => simp [isZeroBit] at h

/-- An extraction weighs what its range weighs. -/
theorem weight_extract (ref : Nat) (e : Expr) (i b : Nat) :
    (extract ref e i b).weight = e.weightIn i b := rfl

theorem weightIn_le_weight (e : Expr) {i b : Nat} (h : i + b ≤ e.bits) :
    e.weightIn i b ≤ e.weight :=
  weightIn_mono e (Nat.zero_le _) (by omega)

end Qsym.Expr
