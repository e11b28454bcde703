import Mathlib.Data.BitVec
import Mathlib.Tactic.Abel

/-!
# Qsym.Bits.Arc

**Arcs of bit vectors.** The numbers of a width lie on a circle, and an arc goes from its lower
end upwards to its upper end, around the end of the numbers if need be (`InArc`). Unsigned and
signed numbers are the same circle cut open at different places: `rank` counts from the least
number on. So a closed range that may wrap around is an arc in either order (`inArc_iff`), and
adding a constant turns an arc into an arc (`inArc_sub`).
-/

namespace Bits

variable {n : Nat} {u : Bool}

/-- The least number, unsigned (`u`) or signed. -/
def least (u : Bool) (n : Nat) : BitVec n :=
  if u then 0 else BitVec.intMin n

/-- The greatest number. -/
def greatest (u : Bool) (n : Nat) : BitVec n :=
  least u n - 1

/-- How many numbers come before `v`. -/
def rank (u : Bool) (v : BitVec n) : Nat :=
  (v - least u n).toNat

/-- `x` is met on the way from `lower` upwards to `upper`. -/
def InArc (lower upper x : BitVec n) : Prop :=
  (x - lower).toNat ≤ (upper - lower).toNat

instance (lower upper x : BitVec n) : Decidable (InArc lower upper x) :=
  inferInstanceAs (Decidable (_ ≤ _))

theorem rank_lt (u : Bool) (v : BitVec n) : rank u v < 2 ^ n :=
  (v - least u n).isLt

theorem rank_inj {v w : BitVec n} : rank u v = rank u w ↔ v = w := by
  rw [rank, rank, BitVec.toNat_inj, sub_left_inj]

@[simp] theorem rank_least : rank u (least u n) = 0 := by
  simp [rank]

theorem rank_greatest (u : Bool) (n : Nat) : rank u (greatest u n) = 2 ^ n - 1 := by
  have hall : (-1 : BitVec n) = BitVec.allOnes n := BitVec.neg_one_eq_allOnes
  rw [rank, greatest, sub_sub_cancel_left, hall, BitVec.toNat_allOnes]

theorem toNat_sub_eq (x y : BitVec n) : (x - y).toNat =
    if y.toNat ≤ x.toNat then x.toNat - y.toNat else 2 ^ n - y.toNat + x.toNat := by
  have hx := x.isLt
  have hy := y.isLt
  rw [BitVec.toNat_sub]
  split
  next h => rw [show 2 ^ n - y.toNat + x.toNat = x.toNat - y.toNat + 2 ^ n by omega,
      Nat.add_mod_right, Nat.mod_eq_of_lt (by omega)]
  next h => exact Nat.mod_eq_of_lt (by omega)

theorem rank_pos {v : BitVec n} (h : v ≠ least u n) : 0 < rank u v := by
  rw [Nat.pos_iff_ne_zero, ← rank_least (u := u), ne_eq, rank_inj]
  exact h

theorem toNat_one_of_pos (hn : 0 < n) : (1 : BitVec n).toNat = 1 := by
  have hpow : 1 < 2 ^ n := Nat.one_lt_two_pow hn.ne'
  simp [Nat.mod_eq_of_lt hpow]

theorem rank_sub_one {v : BitVec n} (h : v ≠ least u n) : rank u (v - 1) = rank u v - 1 := by
  have hpos := rank_pos h
  have hn : 0 < n := by
    rcases Nat.eq_zero_or_pos n with rfl | hn
    · exact absurd (rank_lt u v) (by omega)
    · exact hn
  have hle : (1 : BitVec n).toNat ≤ (v - least u n).toNat := by
    rw [toNat_one_of_pos hn]
    exact hpos
  rw [rank, sub_right_comm, toNat_sub_eq, if_pos hle, toNat_one_of_pos hn, rank]

/-- An unsigned range that may wrap around is an arc. -/
theorem toNat_sub_le_iff (l r x : BitVec n) : (x - l).toNat ≤ (r - l).toNat ↔
    if l.toNat ≤ r.toNat then l.toNat ≤ x.toNat ∧ x.toNat ≤ r.toNat
    else x.toNat ≤ r.toNat ∨ l.toNat ≤ x.toNat := by
  have hl := l.isLt
  have hr := r.isLt
  have hx := x.isLt
  rw [toNat_sub_eq, toNat_sub_eq]
  split <;> split <;> omega

/-- Closed ranges that may wrap around are arcs, in either order. -/
theorem inArc_iff (u : Bool) (lower upper x : BitVec n) : InArc lower upper x ↔
    if rank u lower ≤ rank u upper then rank u lower ≤ rank u x ∧ rank u x ≤ rank u upper
    else rank u x ≤ rank u upper ∨ rank u lower ≤ rank u x := by
  have hcut (v : BitVec n) : v - lower = v - least u n - (lower - least u n) := by abel
  rw [InArc, hcut x, hcut upper]
  exact toNat_sub_le_iff _ _ _

/-- An arc moves with a constant that is added. -/
theorem inArc_sub (c lower upper x : BitVec n) :
    InArc (lower - c) (upper - c) x ↔ InArc lower upper (c + x) := by
  rw [InArc, InArc, sub_sub_sub_cancel_right, show x - (lower - c) = c + x - lower by abel]

theorem inArc_le {v x : BitVec n} : InArc (least u n) v x ↔ rank u x ≤ rank u v :=
  Iff.rfl

theorem inArc_lt {v x : BitVec n} (h : v ≠ least u n) :
    InArc (least u n) (v - 1) x ↔ rank u x < rank u v := by
  have hpos := rank_pos h
  rw [inArc_le, rank_sub_one h]
  omega

theorem inArc_ge {v x : BitVec n} : InArc v (greatest u n) x ↔ rank u v ≤ rank u x := by
  have hv := rank_lt u v
  have hx := rank_lt u x
  rw [inArc_iff u, rank_greatest, if_pos (by omega)]
  omega

theorem inArc_gt {v x : BitVec n} (h : v ≠ greatest u n) :
    InArc (v + 1) (greatest u n) x ↔ rank u v < rank u x := by
  have hne : v + 1 ≠ least u n := fun heq => h (by rw [greatest, ← heq, add_sub_cancel_right])
  have hrank := rank_sub_one hne
  rw [add_sub_cancel_right] at hrank
  have hpos := rank_pos hne
  rw [inArc_ge, hrank]
  omega

theorem inArc_self {v x : BitVec n} : InArc v v x ↔ x = v := by
  rw [InArc, sub_self, ← sub_eq_zero]
  simp [← BitVec.toNat_inj]

/-- All but one number are an arc. -/
theorem inArc_ne {v x : BitVec n} (hn : 0 < n) : InArc (v + 1) (v - 1) x ↔ x ≠ v := by
  have hpow : 1 < 2 ^ n := Nat.one_lt_two_pow hn.ne'
  have hlast : (v - 1 - (v + 1)).toNat = 2 ^ n - 2 := by
    have hall : (-1 : BitVec n) = BitVec.allOnes n := BitVec.neg_one_eq_allOnes
    rw [show v - 1 - (v + 1) = -1 - 1 by abel, toNat_sub_eq, toNat_one_of_pos hn, hall,
      BitVec.toNat_allOnes, if_pos (by omega)]
    omega
  have hzero : x - v ≠ 0 ↔ (x - v).toNat ≠ 0 := by simp [← BitVec.toNat_inj]
  have hlt := (x - v).isLt
  rw [InArc, hlast, show x - (v + 1) = x - v - 1 by abel, toNat_sub_eq, toNat_one_of_pos hn,
    ← sub_ne_zero, hzero]
  split <;> omega

/-! ### The two orders -/

theorem rank_true (v : BitVec n) : rank true v = v.toNat := by
  simp [rank, least]

theorem rank_false (hn : 0 < n) (v : BitVec n) : (rank false v : Int) = v.toInt + 2 ^ (n - 1) := by
  have hmin : (BitVec.intMin n).toNat = 2 ^ (n - 1) := by
    rw [BitVec.toNat_intMin, Nat.mod_eq_of_lt (Nat.two_pow_pred_lt_two_pow hn)]
  have hpow : 2 ^ n = 2 * 2 ^ (n - 1) := by
    rw [← Nat.pow_succ', Nat.succ_eq_add_one, Nat.sub_add_cancel hn]
  have hcast : (2 : Int) ^ (n - 1) = ((2 ^ (n - 1) : Nat) : Int) := by push_cast; rfl
  have hlt := v.isLt
  rw [rank, least, if_neg Bool.false_ne_true, toNat_sub_eq, hmin, BitVec.toInt_eq_toNat_cond, hcast]
  split <;> split <;> omega

theorem rank_false_lt (hn : 0 < n) (v w : BitVec n) :
    rank false v < rank false w ↔ v.slt w = true := by
  have hv := rank_false hn v
  have hw := rank_false hn w
  rw [BitVec.slt_iff_toInt_lt]
  omega

theorem rank_false_le (hn : 0 < n) (v w : BitVec n) :
    rank false v ≤ rank false w ↔ v.sle w = true := by
  have hv := rank_false hn v
  have hw := rank_false hn w
  rw [BitVec.sle_iff_toInt_le]
  omega

end Bits
