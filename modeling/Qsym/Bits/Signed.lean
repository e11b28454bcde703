import Mathlib.Algebra.Order.Ring.Int
import Mathlib.Data.BitVec
import Mathlib.Tactic.Ring

/-!
# Qsym.Bits.Signed

**Chains of signed divisions** with a fixed width. A quotient of integers is cut off
towards zero, so dividing twice is dividing once by the product; with a width, the
most negative number divided by `-1` is itself, as if the divisor were `1`
(`divisor`).

The product of the divisors may be known only modulo `2 ^ n`. `Tracks` says what is
left of it, and `tdiv_eq_iff` when the wrapped product gives the same quotient as
the exact one.
-/

namespace Bits

/-! ### Quotients of integers -/

theorem tdiv_tdiv (a b c : Int) : (a.tdiv b).tdiv c = a.tdiv (b * c) := by
  obtain ⟨m, rfl | rfl⟩ := a.eq_nat_or_neg <;> obtain ⟨k, rfl | rfl⟩ := b.eq_nat_or_neg <;>
    obtain ⟨l, rfl | rfl⟩ := c.eq_nat_or_neg <;>
    simp only [Int.neg_tdiv, Int.tdiv_neg, Int.neg_mul, Int.mul_neg, Int.neg_neg,
      ← Int.natCast_mul, ← Int.ofNat_tdiv, Nat.div_div_eq_div_mul]

theorem tdiv_eq_zero_iff {a b : Int} (hb : b ≠ 0) : a.tdiv b = 0 ↔ a.natAbs < b.natAbs := by
  rw [← Int.natAbs_eq_zero, Int.natAbs_tdiv]
  exact Nat.div_eq_zero_iff.trans (or_iff_right (Int.natAbs_ne_zero.2 hb))

/-! ### The divisor that counts -/

/-- The integers of width `n`. -/
def InRange (n : Nat) (x : Int) : Prop :=
  -(2 ^ (n - 1) : Int) ≤ x ∧ x < 2 ^ (n - 1)

theorem inRange_toInt {n : Nat} (v : BitVec n) : InRange n v.toInt := by
  have h₁ := BitVec.le_toInt v
  have h₂ := BitVec.toInt_lt (x := v)
  exact ⟨h₁, h₂⟩

/-- Dividing the most negative number by `-1` overflows to the number itself. -/
def divisor (n : Nat) (x c : Int) : Int :=
  if c = -1 ∧ x = -2 ^ (n - 1) then 1 else c

theorem divisor_ne_zero {n : Nat} {x c : Int} (hc : c ≠ 0) : divisor n x c ≠ 0 := by
  unfold divisor
  split <;> omega

theorem smtSDiv_eq_sdiv {n : Nat} (v : BitVec n) {w : BitVec n} (hw : w ≠ 0) :
    v.smtSDiv w = v.sdiv w := by
  have hw0 : w ≠ 0#n := hw
  have hneg : -w ≠ 0#n := by simpa using hw0
  rw [BitVec.smtSDiv_eq, BitVec.sdiv_eq]
  cases v.msb <;> cases w.msb <;> simp [BitVec.smtUDiv_eq, hw0, hneg]

theorem toInt_smtSDiv {n : Nat} (hn : 0 < n) (v : BitVec n) {w : BitVec n} (hw : w ≠ 0) :
    (v.smtSDiv w).toInt = v.toInt.tdiv (divisor n v.toInt w.toInt) := by
  have hs := smtSDiv_eq_sdiv v hw
  have hmin : (BitVec.intMin n).toInt = -2 ^ (n - 1) := BitVec.toInt_intMin_of_pos hn
  have hone : (-1#n).toInt = -1 := by
    rw [BitVec.neg_one_eq_allOnes, BitVec.toInt_allOnes, if_pos hn]
  rw [hs, divisor]
  split
  next h =>
      obtain rfl : w = -1#n := BitVec.eq_of_toInt_eq (h.1.trans hone.symm)
      obtain rfl : v = BitVec.intMin n := BitVec.eq_of_toInt_eq (h.2.trans hmin.symm)
      rw [BitVec.intMin_sdiv_neg_one, Int.tdiv_one]
  next h =>
      refine BitVec.toInt_sdiv_of_ne_or_ne v w (not_and_or.1 fun hvw => h ⟨?_, ?_⟩)
      · rw [hvw.2, hone]
      · rw [hvw.1, hmin]

/-- What is left of a product in `n` bits. -/
theorem dvd_toInt_mul {n : Nat} (v w : BitVec n) :
    (2 ^ n : Int) ∣ (v * w).toInt - v.toInt * w.toInt := by
  rw [BitVec.toInt_mul]
  exact_mod_cast Int.dvd_bmod_sub_self (x := v.toInt * w.toInt) (m := 2 ^ n)

/-- What is left of a number in fewer bits. -/
theorem dvd_toInt_setWidth {m n : Nat} (hmn : m ≤ n) (v : BitVec n) :
    (2 ^ m : Int) ∣ (v.setWidth m).toInt - v.toInt := by
  have hlow : (2 ^ m : Int) ∣ (v.setWidth m).toInt - v.toNat := by
    rw [BitVec.toInt_setWidth]
    exact_mod_cast Int.dvd_bmod_sub_self (x := v.toNat) (m := 2 ^ m)
  have hsign : (2 ^ n : Int) ∣ v.toNat - v.toInt := by
    rw [BitVec.toInt_eq_toNat_bmod]
    exact_mod_cast Int.dvd_self_sub_bmod (x := v.toNat) (m := 2 ^ n)
  have := Int.dvd_add hlow ((pow_dvd_pow 2 hmn).trans hsign)
  rwa [sub_add_sub_cancel] at this

/-! ### Products that wrap -/

/-- `v` is what a width of `n` keeps of the product `d` by which `x` is to be
divided. When `x` is the most negative number, the sign may be lost. -/
def Tracks (n : Nat) (x v d : Int) : Prop :=
  d ≠ 0 ∧ ((2 ^ n : Int) ∣ v - d ∨ x = -2 ^ (n - 1) ∧ (2 ^ n : Int) ∣ v + d)

theorem two_pow_eq {n : Nat} (hn : 0 < n) : (2 ^ n : Int) = 2 * 2 ^ (n - 1) := by
  obtain ⟨m, rfl⟩ := Nat.exists_eq_add_of_lt hn
  simp only [Nat.zero_add, Nat.add_sub_cancel]
  ring

theorem tracks_divisor (n : Nat) (x : Int) {c : Int} (hc : c ≠ 0) :
    Tracks n x c (divisor n x c) := by
  refine ⟨divisor_ne_zero hc, ?_⟩
  unfold divisor
  split
  next h => exact .inr ⟨h.2, by simp [h.1]⟩
  next => exact .inl (by simp)

/-- One more division in front: `x / c` is divided on. -/
theorem Tracks.div {n : Nat} {x c v d v' : Int} (hx : InRange n x) (hc : c ≠ 0)
    (h : Tracks n (x.tdiv (divisor n x c)) v d) (hv : (2 ^ n : Int) ∣ v' - c * v) :
    Tracks n x v' (divisor n x c * d) := by
  obtain ⟨hd, h⟩ := h
  refine ⟨Int.mul_ne_zero (divisor_ne_zero hc) hd, ?_⟩
  by_cases hrule : c = -1 ∧ x = -2 ^ (n - 1)
  · obtain ⟨rfl, rfl⟩ := hrule
    have hone : divisor n (-2 ^ (n - 1)) (-1) = 1 := by simp [divisor]
    rw [hone, Int.one_mul]
    obtain h | ⟨-, h⟩ := h
    · refine .inr ⟨rfl, ?_⟩
      have := Int.dvd_sub hv h
      have he : v' - -1 * v - (v - d) = v' + d := by ring
      rwa [he] at this
    · refine .inl ?_
      have := Int.dvd_sub hv h
      have he : v' - -1 * v - (v + d) = v' - d := by ring
      rwa [he] at this
  · have hdiv : divisor n x c = c := if_neg hrule
    rw [hdiv] at h ⊢
    obtain h | ⟨hq, h⟩ := h
    · refine .inl ?_
      have := Int.dvd_add hv (Dvd.dvd.mul_left h c)
      have he : v' - c * v + c * (v - d) = v' - c * d := by ring
      rwa [he] at this
    · -- only `x / 1` gives the most negative number
      have hM : (0 : Int) < 2 ^ (n - 1) := Int.pow_pos (by omega)
      have habs := Int.natAbs_tdiv x c
      have hle : x.natAbs / c.natAbs ≤ x.natAbs := Nat.div_le_self ..
      have hxa : x.natAbs = (2 ^ (n - 1) : Int).natAbs := by
        rw [hq] at habs
        change _ = x.natAbs / c.natAbs at habs
        obtain ⟨h₁, h₂⟩ := hx
        omega
      have hca : c.natAbs = 1 := by
        by_contra hne
        have hlt : x.natAbs / c.natAbs < x.natAbs := Nat.div_lt_self (by omega) (by omega)
        rw [hq] at habs
        change _ = x.natAbs / c.natAbs at habs
        omega
      have hxmin : x = -2 ^ (n - 1) := by
        obtain ⟨h₁, h₂⟩ := hx
        omega
      have hc1 : c = 1 := by omega
      subst hc1
      refine .inr ⟨hxmin, ?_⟩
      have := Int.dvd_add hv h
      have he : v' - 1 * v + (v + d) = v' + 1 * d := by ring
      rwa [he] at this

/-- A smaller width that still holds the dividend. -/
theorem Tracks.narrow {m n : Nat} (hm : 0 < m) (hmn : m ≤ n) {x v d v' : Int} (hx : InRange m x)
    (h : Tracks n x v d) (hv : (2 ^ m : Int) ∣ v' - v) : Tracks m x v' d := by
  have hpow : (2 ^ m : Int) ∣ 2 ^ n := pow_dvd_pow 2 hmn
  refine ⟨h.1, ?_⟩
  obtain h | ⟨hmin, h⟩ := h.2
  · have := Int.dvd_add hv (hpow.trans h)
    have he : v' - v + (v - d) = v' - d := by ring
    exact .inl (he ▸ this)
  · have := Int.dvd_add hv (hpow.trans h)
    have he : v' - v + (v + d) = v' + d := by ring
    refine .inr ⟨?_, he ▸ this⟩
    have hle : (2 ^ (m - 1) : Int) ≤ 2 ^ (n - 1) := pow_le_pow_right₀ (by omega) (by omega)
    obtain ⟨h₁, -⟩ := hx
    omega

section Iff

variable {n : Nat} {x v d : Int}

/-- A product that wraps to zero was too large for the dividend. -/
theorem Tracks.tdiv_eq_zero (hn : 0 < n) (hx : InRange n x) (h : Tracks n x 0 d) :
    x.tdiv d = 0 := by
  rw [tdiv_eq_zero_iff h.1]
  have hdvd : (2 ^ n : Int) ∣ d := by
    obtain h | ⟨-, h⟩ := h.2
    · simpa using h
    · simpa using h
  have hle := Int.natAbs_le_of_dvd_ne_zero hdvd h.1
  have hM : (0 : Int) < 2 ^ (n - 1) := Int.pow_pos (by omega)
  obtain ⟨h₁, h₂⟩ := hx
  rw [two_pow_eq hn] at hle
  omega

/-- Multiples of twice `m` between `-2m` and `2m`. -/
theorem eq_of_dvd_of_range {m s : Int} (hm : 0 < m) (h : 2 * m ∣ s) (hl : -(2 * m) ≤ s)
    (hu : s < 2 * m) : s = 0 ∨ s = -(2 * m) := by
  obtain ⟨k, rfl⟩ := h
  have hk₁ : -1 ≤ k := by
    by_contra hlt
    have : 2 * m * k ≤ 2 * m * (-2) := Int.mul_le_mul_of_nonneg_left (by omega) (by omega)
    omega
  have hk₂ : k < 1 := by
    by_contra hge
    have : 2 * m * 1 ≤ 2 * m * k := Int.mul_le_mul_of_nonneg_left (by omega) (by omega)
    omega
  obtain rfl | rfl : k = -1 ∨ k = 0 := by omega
  · exact .inr (by ring)
  · exact .inl (by ring)

/-- The wrapped product gives the quotient exactly when it is the product, or when
both quotients are zero. -/
theorem Tracks.tdiv_eq_iff (hn : 0 < n) (hx : InRange n x) (hv : InRange n v) (hv0 : v ≠ 0)
    (h : Tracks n x v d) :
    x.tdiv (divisor n x v) = x.tdiv d ↔ divisor n x v = d ∨ x.natAbs < v.natAbs := by
  obtain ⟨hd, h⟩ := h
  have hM : (0 : Int) < 2 ^ (n - 1) := Int.pow_pos (by omega)
  rw [two_pow_eq hn] at h
  unfold InRange at hx hv
  have hdef : divisor n x v = if v = -1 ∧ x = -2 ^ (n - 1) then 1 else v := rfl
  have hv'0 : divisor n x v ≠ 0 := divisor_ne_zero hv0
  generalize (2 ^ (n - 1) : Int) = m at h hM hx hv hdef
  generalize divisor n x v = v' at hdef hv'0
  constructor
  · intro heq
    by_contra hne
    obtain ⟨hne, hge⟩ := not_or.1 hne
    have hv'a : v'.natAbs = v.natAbs := by
      rw [hdef]
      split <;> omega
    have hq : x.tdiv v' ≠ 0 := fun h0 => by
      rw [tdiv_eq_zero_iff hv'0] at h0
      omega
    have hda : d.natAbs ≤ x.natAbs := by
      by_contra hlt
      exact hq (heq.trans ((tdiv_eq_zero_iff hd).2 (by omega)))
    -- a divisor of the opposite sign gives the opposite quotient
    have hopp : v' ≠ -d := by
      rintro rfl
      rw [Int.tdiv_neg] at heq
      rw [Int.tdiv_neg] at hq
      omega
    obtain h | ⟨hmin, h⟩ := h
    · obtain hs | hs := eq_of_dvd_of_range hM h (by omega) (by omega)
      · split at hdef <;> omega
      · split at hdef <;> omega
    · obtain hs | hs := eq_of_dvd_of_range hM h (by omega) (by omega)
      · split at hdef <;> omega
      · split at hdef <;> omega
  · rintro (rfl | hlt)
    · rfl
    · have hv' : v' = v := by
        rw [hdef, if_neg]
        omega
      rw [hv', (tdiv_eq_zero_iff hv0).2 hlt, eq_comm, tdiv_eq_zero_iff hd]
      obtain ⟨k, hk⟩ | ⟨hmin, -⟩ := h
      · by_cases hk0 : k = 0
        · subst hk0
          omega
        · have hkm : 2 * m ≤ (2 * m * k).natAbs := by
            have := Int.natAbs_mul (2 * m) k
            have hle : (2 * m).natAbs * 1 ≤ (2 * m).natAbs * k.natAbs :=
              Nat.mul_le_mul_left _ (by omega)
            omega
          omega
      · omega

end Iff

end Bits
