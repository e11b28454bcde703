import Mathlib.Data.BitVec
import Mathlib.Tactic.Ring

/-!
# Qsym.Bits.Lanes

Bit vectors as **lanes** of `w` bits, the lowest first. `lane` takes one out, `ofLanes` puts
them together, and two vectors of lanes are the same if and only if every lane is.
-/

namespace Bits

variable {n w k : Nat}

/-- Lane `i` of `w` bits. -/
def lane (w : Nat) (x : BitVec n) (i : Nat) : BitVec w :=
  x.extractLsb' (i * w) w

/-- The number of the lanes below `k`. -/
def lanesNat (f : Nat → BitVec w) : Nat → Nat
  | 0 => 0
  | k + 1 => 2 ^ (k * w) * (f k).toNat + lanesNat f k

/-- The vector of as many lanes as there is room for. -/
def ofLanes (n : Nat) (f : Nat → BitVec w) : BitVec n :=
  BitVec.ofNat n (lanesNat f (n / w))

variable {f g : Nat → BitVec w} {x y : BitVec n} {i : Nat}

theorem lanesNat_lt (f : Nat → BitVec w) (k : Nat) : lanesNat f k < 2 ^ (k * w) := by
  induction k with
  | zero => simp [lanesNat]
  | succ k ih =>
      have hlt := (f k).isLt
      have hpow : 2 ^ ((k + 1) * w) = 2 ^ (k * w) * 2 ^ w := by rw [Nat.succ_mul, Nat.pow_add]
      rw [lanesNat, hpow]
      calc 2 ^ (k * w) * (f k).toNat + lanesNat f k
          < 2 ^ (k * w) * (f k).toNat + 2 ^ (k * w) := by omega
        _ = 2 ^ (k * w) * ((f k).toNat + 1) := by ring
        _ ≤ 2 ^ (k * w) * 2 ^ w := Nat.mul_le_mul_left _ hlt

theorem lanesNat_div_mod (hi : i < k) : lanesNat f k / 2 ^ (i * w) % 2 ^ w = (f i).toNat := by
  induction k with
  | zero => omega
  | succ k ih =>
      have hlt := lanesNat_lt f k
      rw [lanesNat]
      by_cases hk : i = k
      · subst hk
        rw [Nat.mul_add_div (Nat.two_pow_pos _), Nat.div_eq_of_lt hlt, Nat.add_zero,
          Nat.mod_eq_of_lt (f i).isLt]
      · -- a lane above is a multiple of `2 ^ w` from here
        obtain ⟨d, hd⟩ : ∃ d, k = i + (d + 1) := ⟨k - i - 1, by omega⟩
        have hpow : 2 ^ (k * w) = 2 ^ (i * w) * (2 ^ w * 2 ^ (d * w)) := by
          rw [← Nat.pow_add, ← Nat.pow_add, hd]
          congr 1
          ring
        rw [hpow, Nat.mul_assoc, Nat.mul_add_div (Nat.two_pow_pos _), Nat.mul_assoc,
          Nat.mul_add_mod]
        exact ih (by omega)

theorem lane_ofLanes (hi : i * w + w ≤ n) (hw : 0 < w) : lane w (ofLanes n f) i = f i := by
  have hk : i < n / w := (Nat.lt_iff_add_one_le.2 ((Nat.le_div_iff_mul_le hw).2 (by
    rw [Nat.succ_mul]
    exact hi)))
  have hlt : lanesNat f (n / w) < 2 ^ n :=
    Nat.lt_of_lt_of_le (lanesNat_lt f _)
      (Nat.pow_le_pow_right Nat.two_pos (Nat.div_mul_le_self n w))
  apply BitVec.eq_of_toNat_eq
  rw [lane, ofLanes, BitVec.extractLsb'_toNat, BitVec.toNat_ofNat, Nat.mod_eq_of_lt hlt,
    Nat.shiftRight_eq_div_pow, lanesNat_div_mod hk]

theorem eq_of_lanes (hw : 0 < w) (hn : w ∣ n) (h : ∀ i < n / w, lane w x i = lane w y i) :
    x = y := by
  obtain ⟨k, rfl⟩ := hn
  rw [Nat.mul_div_cancel_left k hw] at h
  apply BitVec.eq_of_getLsbD_eq
  intro j hj
  have hlane := congrArg (fun v => v.getLsbD (j % w)) (h (j / w) (Nat.div_lt_of_lt_mul hj))
  have hsplit : j / w * w + j % w = j := by
    rw [Nat.mul_comm]
    exact Nat.div_add_mod j w
  simpa [lane, BitVec.getLsbD_extractLsb', Nat.mod_lt j hw, hsplit] using hlane

theorem lt_of_lane (hw : 0 < w) (hi : i < n / w) : i * w + w ≤ n := by
  rw [← Nat.succ_mul]
  exact (Nat.le_div_iff_mul_le hw).1 hi

theorem ofLanes_eq_iff (hw : 0 < w) (hn : w ∣ n) :
    ofLanes n f = x ↔ ∀ i < n / w, f i = lane w x i := by
  constructor
  · rintro rfl i hi
    exact (lane_ofLanes (lt_of_lane hw hi) hw).symm
  · intro h
    exact eq_of_lanes hw hn fun i hi => (lane_ofLanes (lt_of_lane hw hi) hw).trans (h i hi)

/-- Vectors of lanes are equal if and only if the lanes are. -/
theorem ofLanes_inj (hw : 0 < w) (hn : w ∣ n) :
    ofLanes n f = ofLanes n g ↔ ∀ i < n / w, f i = g i := by
  rw [ofLanes_eq_iff hw hn]
  exact forall₂_congr fun i hi => by rw [lane_ofLanes (lt_of_lane hw hi) hw]

theorem ofLanes_congr (h : ∀ i < n / w, f i = g i) : ofLanes n f = ofLanes n g := by
  have hnat (k : Nat) (hk : k ≤ n / w) : lanesNat f k = lanesNat g k := by
    induction k with
    | zero => rfl
    | succ k ih => rw [lanesNat, lanesNat, h k hk, ih (by omega)]
  rw [ofLanes, ofLanes, hnat _ (Nat.le_refl _)]

/-- The lanes of a concatenation are those of the low part, and then those of the high one. -/
theorem lane_append {m : Nat} (hn : w ∣ n) (y : BitVec m) (x : BitVec n) (i : Nat) :
    lane w (y ++ x) i = if i < n / w then lane w x i else lane w y (i - n / w) := by
  obtain ⟨k, rfl⟩ := hn
  rcases Nat.eq_zero_or_pos w with rfl | hw
  · exact Subsingleton.elim _ _
  rw [Nat.mul_div_cancel_left k hw]
  apply BitVec.eq_of_getLsbD_eq
  intro j hj
  by_cases hi : i < k
  · have hlow : i * w + j < w * k := by
      calc i * w + j < (i + 1) * w := by rw [Nat.succ_mul]; omega
        _ ≤ k * w := Nat.mul_le_mul_right w hi
        _ = w * k := Nat.mul_comm k w
    simp [lane, hi, hj, BitVec.getLsbD_append, hlow]
  · have hhigh : w * k ≤ i * w + j := by
      calc w * k = k * w := Nat.mul_comm w k
        _ ≤ i * w := Nat.mul_le_mul_right w (by omega)
        _ ≤ i * w + j := Nat.le_add_right _ _
    have hrest : i * w + j - w * k = (i - k) * w + j := by
      rw [Nat.sub_mul, Nat.mul_comm w k]
      have := Nat.mul_le_mul_right w (show k ≤ i by omega)
      omega
    simp [lane, hi, hj, BitVec.getLsbD_append, Nat.not_lt.2 hhigh, hrest]

/-- Neighbouring parts. -/
theorem extract_append (x : BitVec n) (i m w : Nat) :
    x.extractLsb' (i + w) m ++ x.extractLsb' i w = x.extractLsb' i (m + w) := by
  apply BitVec.eq_of_getLsbD_eq
  intro j hj
  rw [BitVec.getLsbD_append]
  split
  next h => simp [h, hj]
  next h =>
    have hrest : i + w + (j - w) = i + j := by omega
    have hlt : j - w < m := by omega
    simp [hj, hlt, hrest]

/-- The lanes of a part. -/
theorem lane_extract {m : Nat} (x : BitVec n) (b : Nat) (hi : i * w + w ≤ m) :
    lane w (x.extractLsb' (b * w) m) i = lane w x (b + i) := by
  apply BitVec.eq_of_getLsbD_eq
  intro j hj
  have hlt : i * w + j < m := by omega
  have hpos : b * w + (i * w + j) = (b + i) * w + j := by rw [Nat.add_mul, Nat.add_assoc]
  simp [lane, hj, hlt, hpos]

/-- A part of what is shifted. -/
theorem extract_shift (x : BitVec n) {y : BitVec n} {p : Nat} (hy : y.toNat = p) (i w : Nat) :
    (x >>> y).extractLsb' i w = x.extractLsb' (p + i) w := by
  apply BitVec.eq_of_getLsbD_eq
  intro j hj
  simp [BitVec.ushiftRight_eq', hy, hj, Nat.add_assoc]

/-- A lane of one bit. -/
theorem extractLsb'_beq_one (x : BitVec n) (i : Nat) : (x.extractLsb' i 1 == 1) = x.getLsbD i := by
  rw [Bool.eq_iff_iff, beq_iff_eq]
  constructor
  · intro h
    simpa using congrArg (BitVec.getLsbD · 0) h
  · intro h
    apply BitVec.eq_of_getLsbD_eq
    intro j hj
    obtain rfl := Nat.lt_one_iff.1 hj
    simpa using h

/-- A lane put above what is there. -/
theorem lanesNat_append (f : Nat → BitVec w) (u : Nat) :
    (2 ^ w * u + (f k).toNat) * 2 ^ (k * w) + lanesNat f k =
      u * 2 ^ ((k + 1) * w) + lanesNat f (k + 1) := by
  rw [lanesNat, Nat.succ_mul, Nat.pow_add]
  ring

end Bits
