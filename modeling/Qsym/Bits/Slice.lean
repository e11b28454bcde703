import Mathlib.Data.Nat.Bitwise
import Mathlib.Tactic.Ring

/-!
# Qsym.Bits.Slice

**Slices of natural numbers**: `slice v i b` is the number written by the `b` bits
of `v` from bit `i` on, and `l * 2 ^ k + r` with `r < 2 ^ k` is `l` written in
front of the `k` bits of `r`. These are the laws of the two operations: how
slices of a concatenation, of a slice and of a bitwise combination simplify.
-/

namespace Bits

/-- The `b` bits of `v` from bit `i` on. -/
def slice (v i b : Nat) : Nat :=
  v / 2 ^ i % 2 ^ b

theorem slice_lt (v i b : Nat) : slice v i b < 2 ^ b :=
  Nat.mod_lt _ (Nat.two_pow_pos b)

@[simp] theorem testBit_slice (v i b j : Nat) :
    (slice v i b).testBit j = (decide (j < b) && v.testBit (j + i)) := by
  simp [slice, Nat.testBit_mod_two_pow, Nat.testBit_div_two_pow]

theorem testBit_append {r k : Nat} (h : r < 2 ^ k) (l j : Nat) :
    (l * 2 ^ k + r).testBit j = if j < k then r.testBit j else l.testBit (j - k) := by
  rw [Nat.mul_comm]
  exact Nat.testBit_two_pow_mul_add l h j

theorem append_lt {l r a k : Nat} (hl : l < 2 ^ a) (hr : r < 2 ^ k) :
    l * 2 ^ k + r < 2 ^ (a + k) := by
  calc l * 2 ^ k + r < l * 2 ^ k + 2 ^ k := Nat.add_lt_add_left hr _
    _ = (l + 1) * 2 ^ k := by ring
    _ ≤ 2 ^ a * 2 ^ k := Nat.mul_le_mul_right _ hl
    _ = 2 ^ (a + k) := (Nat.pow_add ..).symm

theorem append_assoc (x y z a b : Nat) :
    (x * 2 ^ a + y) * 2 ^ b + z = x * 2 ^ (a + b) + (y * 2 ^ b + z) := by
  rw [Nat.pow_add]; ring

theorem slice_zero_of_lt {v b : Nat} (h : v < 2 ^ b) : slice v 0 b = v := by
  simp [slice, Nat.mod_eq_of_lt h]

theorem slice_eq_zero_of_lt {v i : Nat} (h : v < 2 ^ i) (b : Nat) : slice v i b = 0 := by
  simp [slice, Nat.div_eq_of_lt h]

theorem slice_slice {v i b j c : Nat} (h : j + c ≤ b) :
    slice (slice v i b) j c = slice v (i + j) c := by
  refine Nat.eq_of_testBit_eq fun n => ?_
  simp only [testBit_slice]
  by_cases hn : n < c
  · simp [hn, show n + j < b by omega, show n + j + i = n + (i + j) by omega]
  · simp [hn]

/-- A slice inside the high part. -/
theorem slice_append_high {r k : Nat} (hr : r < 2 ^ k) (l : Nat) {i : Nat} (hi : k ≤ i)
    (b : Nat) : slice (l * 2 ^ k + r) i b = slice l (i - k) b := by
  refine Nat.eq_of_testBit_eq fun n => ?_
  simp only [testBit_slice, testBit_append hr]
  rw [if_neg (by omega), show n + i - k = n + (i - k) by omega]

/-- A slice inside the low part. -/
theorem slice_append_low {r k : Nat} (hr : r < 2 ^ k) (l : Nat) {i b : Nat} (h : i + b ≤ k) :
    slice (l * 2 ^ k + r) i b = slice r i b := by
  refine Nat.eq_of_testBit_eq fun n => ?_
  simp only [testBit_slice, testBit_append hr]
  by_cases hn : n < b
  · simp [show n + i < k by omega]
  · simp [hn]

/-- A slice across the boundary. -/
theorem slice_append_across {r k : Nat} (hr : r < 2 ^ k) (l : Nat) {i b : Nat} (hi : i < k)
    (h : k < i + b) :
    slice (l * 2 ^ k + r) i b = slice l 0 (b - (k - i)) * 2 ^ (k - i) + slice r i (k - i) := by
  refine Nat.eq_of_testBit_eq fun n => ?_
  rw [testBit_append (slice_lt ..)]
  simp only [testBit_slice, testBit_append hr]
  by_cases hn : n < k - i
  · simp [hn, show n < b by omega, show n + i < k by omega]
  · simp only [hn, if_false, show ¬ n + i < k by omega]
    rw [show n - (k - i) + 0 = n + i - k by omega]
    exact congrArg (· && l.testBit (n + i - k)) (decide_eq_decide.2 (by omega))

/-- Two adjacent slices. -/
theorem append_slices (v i b c : Nat) :
    slice v (i + b) c * 2 ^ b + slice v i b = slice v i (b + c) := by
  refine Nat.eq_of_testBit_eq fun n => ?_
  rw [testBit_append (slice_lt ..)]
  simp only [testBit_slice]
  by_cases hn : n < b
  · simp [hn, show n < b + c by omega]
  · simp only [hn, if_false]
    rw [show n - b + (i + b) = n + i by omega]
    exact congrArg (· && v.testBit (n + i)) (decide_eq_decide.2 (by omega))

/-! ### Bitwise operations, part by part -/

theorem append_and {a b k : Nat} (ha : a < 2 ^ k) (hb : b < 2 ^ k) (x y : Nat) :
    (x * 2 ^ k + a) &&& (y * 2 ^ k + b) = (x &&& y) * 2 ^ k + (a &&& b) := by
  refine Nat.eq_of_testBit_eq fun n => ?_
  rw [testBit_append (Nat.and_lt_two_pow _ hb), Nat.testBit_and, testBit_append ha,
    testBit_append hb]
  split <;> simp

theorem append_or {a b k : Nat} (ha : a < 2 ^ k) (hb : b < 2 ^ k) (x y : Nat) :
    (x * 2 ^ k + a) ||| (y * 2 ^ k + b) = (x ||| y) * 2 ^ k + (a ||| b) := by
  refine Nat.eq_of_testBit_eq fun n => ?_
  rw [testBit_append (Nat.or_lt_two_pow ha hb), Nat.testBit_or, testBit_append ha,
    testBit_append hb]
  split <;> simp

theorem append_xor {a b k : Nat} (ha : a < 2 ^ k) (hb : b < 2 ^ k) (x y : Nat) :
    (x * 2 ^ k + a) ^^^ (y * 2 ^ k + b) = (x ^^^ y) * 2 ^ k + (a ^^^ b) := by
  refine Nat.eq_of_testBit_eq fun n => ?_
  rw [testBit_append (Nat.xor_lt_two_pow ha hb), Nat.testBit_xor, testBit_append ha,
    testBit_append hb]
  split <;> simp

/-- Where one number has no bits, a combination shows the other. -/
theorem slice_or_of_zero {v w i b : Nat} (h : ∀ j, i ≤ j → j < i + b → v.testBit j = false) :
    slice (v ||| w) i b = slice w i b := by
  refine Nat.eq_of_testBit_eq fun n => ?_
  simp only [testBit_slice, Nat.testBit_or]
  by_cases hn : n < b
  · simp [h (n + i) (by omega) (by omega)]
  · simp [hn]

theorem append_split {v a k : Nat} (h : v < 2 ^ (a + k)) :
    slice v k a * 2 ^ k + slice v 0 k = v := by
  have := append_slices v 0 k a
  rw [Nat.zero_add] at this
  rw [this, slice_zero_of_lt (by rwa [Nat.add_comm])]

/-- Shifting into place and combining writes one number in front of the other. -/
theorem toNat_setWidth_shiftLeft_or {n m : Nat} (v : BitVec n) (w : BitVec m) :
    ((v.setWidth (n + m) <<< m) ||| w.setWidth (n + m)).toNat = v.toNat * 2 ^ m + w.toNat := by
  have hv : v.toNat * 2 ^ m < 2 ^ (n + m) := by
    rw [Nat.pow_add]
    exact Nat.mul_lt_mul_of_pos_right v.isLt (Nat.two_pow_pos m)
  rw [BitVec.toNat_or, BitVec.toNat_shiftLeft, BitVec.toNat_setWidth_of_le (Nat.le_add_right ..),
    BitVec.toNat_setWidth_of_le (Nat.le_add_left ..), Nat.shiftLeft_eq, Nat.mod_eq_of_lt hv,
    Nat.mul_comm, Nat.two_pow_add_eq_or_of_lt w.isLt]

end Bits
