import Mathlib.Data.BitVec
import Mathlib.Data.Nat.Count
import Mathlib.Data.Nat.Log

/-!
# Qsym.Bits.Backoff

The schedule of an **exponential back-off**: of the counts 0, 1, 2, … only 0 and the powers
of two are sampled. A count `x` is sampled exactly when `x &&& (x - 1)` is zero
(`and_sub_one_eq_zero_iff`), and few of the first `k` counts are (`count_sampled_le`). A
counter that wraps samples each of its rounds anew (`count_wrapped`).
-/

namespace Bits

/-- `n` is 0 or a power of two. -/
def Sampled (n : Nat) : Prop :=
  n = 0 ∨ n.isPowerOfTwo

instance : DecidablePred Sampled :=
  fun n => inferInstanceAs (Decidable (n = 0 ∨ n.isPowerOfTwo))

/-- The usual test of a count that wraps. -/
theorem and_sub_one_eq_zero_iff {w : Nat} (x : BitVec w) :
    x &&& (x - 1) = 0 ↔ Sampled x.toNat := by
  by_cases hx : x = 0
  · simp [hx, Sampled]
  · have hne : x.toNat ≠ 0 := fun h => hx (BitVec.eq_of_toNat_eq (by simpa using h))
    have hlt := x.isLt
    have hsub : (x - 1).toNat = x.toNat - 1 := by
      have hwide : 1 < 2 ^ w := by omega
      have hone : (1 : BitVec w).toNat = 1 := Nat.mod_eq_of_lt hwide
      rw [BitVec.toNat_sub_of_le (by rw [BitVec.le_def, hone]; omega), hone]
    rw [← BitVec.toNat_inj, BitVec.toNat_and, hsub, Sampled, or_iff_right hne,
      ← Nat.and_sub_one_eq_zero_iff_isPowerOfTwo hne]
    simp

/-- The remainder of a sampled count is sampled: the powers of two from `2 ^ w` on leave 0. -/
theorem Sampled.mod_two_pow {n : Nat} (h : Sampled n) (w : Nat) : Sampled (n % 2 ^ w) := by
  obtain rfl | ⟨k, rfl⟩ := h
  · exact .inl (Nat.zero_mod _)
  · by_cases hk : k < w
    · rw [Nat.mod_eq_of_lt (Nat.pow_lt_pow_right (by decide) hk)]
      exact .inr ⟨k, rfl⟩
    · exact .inl (Nat.mod_eq_zero_of_dvd (Nat.pow_dvd_pow 2 (by omega)))

/-- Of `k` counts at most a logarithm of `k` and one more are sampled. -/
theorem count_sampled_le (k : Nat) : Nat.count Sampled k ≤ Nat.clog 2 k + 1 := by
  have hsub : (Finset.range k).filter Sampled ⊆
      insert 0 ((Finset.range (Nat.clog 2 k)).image (2 ^ ·)) := by
    intro n hn
    obtain ⟨hlt, rfl | ⟨j, rfl⟩⟩ := Finset.mem_filter.mp hn
    · exact Finset.mem_insert_self 0 _
    · have hj : j < Nat.clog 2 k := by
        rw [Finset.mem_range] at hlt
        exact (Nat.lt_clog_iff_pow_lt (by decide)).mpr hlt
      exact Finset.mem_insert_of_mem
        (Finset.mem_image_of_mem _ (Finset.mem_range.mpr hj))
  calc Nat.count Sampled k
      = ((Finset.range k).filter Sampled).card := Nat.count_eq_card_filter_range _ k
    _ ≤ (insert 0 ((Finset.range (Nat.clog 2 k)).image (2 ^ ·))).card := Finset.card_le_card hsub
    _ ≤ ((Finset.range (Nat.clog 2 k)).image (2 ^ ·)).card + 1 := Finset.card_insert_le _ _
    _ ≤ Nat.clog 2 k + 1 := by
      have himage := Finset.card_image_le (s := Finset.range (Nat.clog 2 k)) (f := (2 ^ ·))
      rw [Finset.card_range] at himage
      exact Nat.add_le_add_right himage 1

/-- What is counted in every round of a counter modulo `m`. -/
theorem count_wrapped (p : Nat → Prop) [DecidablePred p] (m q : Nat) :
    Nat.count (fun n => p (n % m)) (m * q) = q * Nat.count p m := by
  have hround (j : Nat) : Nat.count (fun n => p ((m * j + n) % m)) m = Nat.count p m := by
    rw [Nat.count_eq_card_filter_range, Nat.count_eq_card_filter_range]
    congr 1
    apply Finset.filter_congr
    intro n hn
    rw [Nat.mul_add_mod, Nat.mod_eq_of_lt (Finset.mem_range.mp hn)]
  induction q with
  | zero => simp
  | succ q ih => rw [Nat.mul_succ, Nat.count_add, ih, hround, Nat.succ_mul]

end Bits
