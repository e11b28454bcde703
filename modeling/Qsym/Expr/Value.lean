import Qsym.Bits.Slice
import Qsym.Expr.Basic

/-!
# Qsym.Expr.Value

The **meaning of an expression** under an assignment of input bytes, as a natural
number below `2 ^ bits`; a truth value is `0` or `1`. `Expr.bv` is the same
number as a bit vector of the width the context asks for, the form in which the
arithmetic kinds are stated.

`Qsym.Expr.ToZ3` shows that this is the value Z3 gives to the translated term.
-/

namespace Qsym

open Bits

/-- An assignment of input bytes. -/
abbrev Input := Nat → BitVec 8

/-- The operation of a unary kind. Logical kinds work on one bit. -/
def UnaryKind.apply {n : Nat} : UnaryKind → BitVec n → BitVec n
  | neg, v => -v
  | not, v | lnot, v => ~~~v

/-- The operation of an extension. -/
def ExtKind.apply {m : Nat} (n : Nat) : ExtKind → BitVec m → BitVec n
  | zext, v => v.setWidth n
  | sext, v => v.signExtend n

/-- The operation of a binary kind, with the SMT-LIB conventions for a zero
divisor. Logical kinds work on one bit. -/
def BinaryKind.apply {n : Nat} : BinaryKind → BitVec n → BitVec n → BitVec n
  | add, v, w => v + w
  | sub, v, w => v - w
  | mul, v, w => v * w
  | udiv, v, w => v.smtUDiv w
  | sdiv, v, w => v.smtSDiv w
  | urem, v, w => v % w
  | srem, v, w => v.srem w
  | and, v, w | land, v, w => v &&& w
  | or, v, w | lor, v, w => v ||| w
  | xor, v, w => v ^^^ w
  | shl, v, w => v <<< w
  | lshr, v, w => v >>> w
  | ashr, v, w => v.sshiftRight' w

/-- The kinds that work bit by bit on bit vectors. -/
def BinaryKind.isBitwise : BinaryKind → Bool
  | and | or | xor => true
  | _ => false

/-- The bitwise operation on numbers. -/
def BinaryKind.natOp : BinaryKind → Nat → Nat → Nat
  | or, a, b => a ||| b
  | xor, a, b => a ^^^ b
  | _, a, b => a &&& b

theorem BinaryKind.toNat_apply_of_isBitwise {k : BinaryKind} (hk : k.isBitwise = true) {n : Nat}
    (v w : BitVec n) : (k.apply v w).toNat = k.natOp v.toNat w.toNat := by
  cases k with
  | and => exact BitVec.toNat_and v w
  | or => exact BitVec.toNat_or v w
  | xor => exact BitVec.toNat_xor v w
  | _ => cases hk

/-- Bitwise operations work part by part. -/
theorem BinaryKind.natOp_append {k : BinaryKind} (hk : k.isBitwise = true) {a b n : Nat}
    (ha : a < 2 ^ n) (hb : b < 2 ^ n) (x y : Nat) :
    k.natOp (x * 2 ^ n + a) (y * 2 ^ n + b) = k.natOp x y * 2 ^ n + k.natOp a b := by
  cases k with
  | and => exact append_and ha hb x y
  | or => exact append_or ha hb x y
  | xor => exact append_xor ha hb x y
  | _ => cases hk

/-- The relation of a comparison kind. -/
def CompareKind.holds {n : Nat} : CompareKind → BitVec n → BitVec n → Bool
  | equal, v, w => v == w
  | distinct, v, w => v != w
  | ult, v, w => v.ult w
  | ule, v, w => v.ule w
  | ugt, v, w => w.ult v
  | uge, v, w => w.ule v
  | slt, v, w => v.slt w
  | sle, v, w => v.sle w
  | sgt, v, w => w.slt v
  | sge, v, w => w.sle v

namespace Expr

/-- The value of an expression when input byte `i` is `ρ i`. -/
def value (ρ : Input) : Expr → Nat
  | bool _ b => b.toNat
  | constant _ _ v => v.toNat
  | read i => (ρ i).toNat
  | concat _ l r => l.value ρ * 2 ^ r.bits + r.value ρ
  | extract _ e i b => slice (e.value ρ) i b
  | ext _ k e b => (k.apply b (BitVec.ofNat e.bits (e.value ρ))).toNat
  | unary _ k e => (k.apply (BitVec.ofNat e.bits (e.value ρ))).toNat
  | binary _ k l r =>
      (k.apply (BitVec.ofNat l.bits (l.value ρ)) (BitVec.ofNat l.bits (r.value ρ))).toNat
  | compare _ k l r =>
      (k.holds (BitVec.ofNat l.bits (l.value ρ)) (BitVec.ofNat l.bits (r.value ρ))).toNat
  | ite _ c t f => if c.value ρ = 1 then t.value ρ else f.value ρ

/-- Every divisor in `e` has a value other than zero. -/
def DivisorsNonzero (ρ : Input) : Expr → Prop
  | bool _ _ | constant _ _ _ | read _ => True
  | concat _ l r => l.DivisorsNonzero ρ ∧ r.DivisorsNonzero ρ
  | extract _ e _ _ => e.DivisorsNonzero ρ
  | ext _ _ e _ => e.DivisorsNonzero ρ
  | unary _ _ e => e.DivisorsNonzero ρ
  | binary _ k l r =>
      l.DivisorsNonzero ρ ∧ r.DivisorsNonzero ρ ∧ (k.isDivision = true → r.value ρ ≠ 0)
  | compare _ _ l r => l.DivisorsNonzero ρ ∧ r.DivisorsNonzero ρ
  | ite _ c t f => c.DivisorsNonzero ρ ∧ t.DivisorsNonzero ρ ∧ f.DivisorsNonzero ρ

/-- The value of `e` as a truth value. -/
def truth (ρ : Input) (e : Expr) : Bool :=
  e.value ρ == 1

/-- The value of `e` as a bit vector of width `n`. -/
def bv (ρ : Input) (n : Nat) (e : Expr) : BitVec n :=
  BitVec.ofNat n (e.value ρ)

theorem WellSorted.value_lt {e : Expr} (h : e.WellSorted) (ρ : Input) :
    e.value ρ < 2 ^ e.bits := by
  induction e with
  | bool _ b => exact Bool.toNat_lt b
  | constant _ n v => exact v.isLt
  | read i => exact (ρ i).isLt
  | concat _ l r ihl ihr => exact append_lt (ihl h.1) (ihr h.2.1)
  | extract _ e i b => exact slice_lt ..
  | ext _ k e b => exact BitVec.isLt _
  | unary _ k e => exact BitVec.isLt _
  | binary _ k l r => exact BitVec.isLt _
  | compare _ k l r => exact Bool.toNat_lt _
  | ite _ c t f _ iht ihf =>
      obtain ⟨-, ht, hf, -, -, hb⟩ := h
      simp only [value, bits]
      split
      · exact iht ht
      · exact hb ▸ ihf hf

/-- A truth value is `0` or `1`. -/
theorem WellSorted.value_lt_two {e : Expr} (h : e.WellSorted) (hb : e.isBoolean = true)
    (ρ : Input) : e.value ρ < 2 := by
  have := h.value_lt ρ
  rwa [h.bits_of_isBoolean hb] at this

theorem WellSorted.toNat_bv {e : Expr} (h : e.WellSorted) {n : Nat} (hn : e.bits = n)
    (ρ : Input) : (e.bv ρ n).toNat = e.value ρ := by
  rw [bv, BitVec.toNat_ofNat, Nat.mod_eq_of_lt (hn ▸ h.value_lt ρ)]

/-- Equal bit vectors of the full width are equal values. -/
theorem value_eq_of_bv {e e' : Expr} (h : e.WellSorted) (h' : e'.WellSorted) {n : Nat}
    (hn : e.bits = n) (hn' : e'.bits = n) {ρ : Input} (hv : e.bv ρ n = e'.bv ρ n) :
    e.value ρ = e'.value ρ := by
  rw [← h.toNat_bv hn, ← h'.toNat_bv hn', hv]

@[simp] theorem bv_constant (ρ : Input) (ref n : Nat) (v : BitVec n) :
    (constant ref n v).bv ρ n = v := by
  simp [bv, value]

theorem bv_unary (ρ : Input) (ref : Nat) (k : UnaryKind) {e : Expr} {n : Nat}
    (h : e.bits = n) : (unary ref k e).bv ρ n = k.apply (e.bv ρ n) := by
  subst h; simp [bv, value]

theorem bv_binary (ρ : Input) (ref : Nat) (k : BinaryKind) {l r : Expr} {n : Nat}
    (h : l.bits = n) : (binary ref k l r).bv ρ n = k.apply (l.bv ρ n) (r.bv ρ n) := by
  subst h; simp [bv, value]

theorem value_unary (ρ : Input) (ref : Nat) (k : UnaryKind) {e : Expr} {n : Nat}
    (h : e.bits = n) : (unary ref k e).value ρ = (k.apply (e.bv ρ n)).toNat := by
  subst h; rfl

theorem value_binary (ρ : Input) (ref : Nat) (k : BinaryKind) {l r : Expr} {n : Nat}
    (h : l.bits = n) :
    (binary ref k l r).value ρ = (k.apply (l.bv ρ n) (r.bv ρ n)).toNat := by
  subst h; rfl

theorem value_compare (ρ : Input) (ref : Nat) (k : CompareKind) {l r : Expr} {n : Nat}
    (h : l.bits = n) :
    (compare ref k l r).value ρ = (k.holds (l.bv ρ n) (r.bv ρ n)).toNat := by
  subst h; rfl

/-! ### What the scans say about the value -/

theorem isZero_iff {e : Expr} : e.isZero = true ↔ ∃ ref n, e = constant ref n 0 := by
  cases e <;> simp [isZero]

theorem isOne_iff {e : Expr} : e.isOne = true ↔ ∃ ref n, e = constant ref n 1 := by
  cases e <;> simp [isOne]

theorem isAllOnes_iff {e : Expr} :
    e.isAllOnes = true ↔ ∃ ref n, e = constant ref n (BitVec.allOnes n) := by
  cases e <;> simp [isAllOnes]

theorem isConstant_iff {e : Expr} : e.isConstant = true ↔ ∃ ref n v, e = constant ref n v := by
  cases e <;> simp [isConstant]

/-- A bit the scan calls zero is zero under every input. -/
theorem testBit_of_isZeroBit {e : Expr} (h : e.WellSorted) {i : Nat}
    (hz : e.isZeroBit i = true) (ρ : Input) : (e.value ρ).testBit i = false := by
  induction e generalizing i with
  | constant _ n v => simpa [isZeroBit, value, BitVec.testBit_toNat] using hz
  | concat _ l r ihl ihr =>
      rw [value, testBit_append (h.2.1.value_lt ρ)]
      simp only [isZeroBit] at hz
      by_cases hi : r.bits ≤ i
      · rw [if_pos hi] at hz
        rw [if_neg (by omega)]
        exact ihl h.1 hz
      · rw [if_neg hi] at hz
        rw [if_pos (by omega)]
        exact ihr h.2.1 hz
  | _ => simp [isZeroBit] at hz

/-- A constant fits in its active bits. -/
theorem toNat_lt_two_pow_getActiveBits {n : Nat} (v : BitVec n) :
    v.toNat < 2 ^ getActiveBits v :=
  BitVec.toNat_lt_two_pow_sub_clz

theorem toNat_clz_le {n : Nat} (v : BitVec n) : v.clz.toNat ≤ n := by
  have h := BitVec.le_def.mp (BitVec.clz_le (x := v))
  rwa [BitVec.natCast_eq_ofNat, BitVec.toNat_ofNat, Nat.mod_eq_of_lt Nat.lt_two_pow_self] at h

theorem countLeadingZeros_le {e : Expr} (h : e.WellSorted) : e.countLeadingZeros ≤ e.bits := by
  induction e with
  | constant _ n v => exact toNat_clz_le v
  | concat _ l r ihl ihr =>
      have hl := ihl h.1
      have hr := ihr h.2.1
      simp only [countLeadingZeros, bits]
      split <;> omega
  | ext _ k e b => cases k <;> simp [countLeadingZeros, bits]
  | _ => exact Nat.zero_le _

/-- The value fits below the leading zeros. -/
theorem value_lt_of_countLeadingZeros {e : Expr} (h : e.WellSorted) (ρ : Input) :
    e.value ρ < 2 ^ (e.bits - e.countLeadingZeros) := by
  induction e with
  | constant _ n v => exact toNat_lt_two_pow_getActiveBits v
  | concat _ l r ihl ihr =>
      have hl := ihl h.1
      have hr := ihr h.2.1
      have hle := countLeadingZeros_le h.1
      simp only [value, countLeadingZeros, bits]
      split
      next heq =>
          rw [heq, Nat.sub_self, Nat.pow_zero, Nat.lt_one_iff] at hl
          rwa [hl, Nat.zero_mul, Nat.zero_add, heq, Nat.add_sub_add_left]
      next hne =>
          rw [show l.bits + r.bits - l.countLeadingZeros
            = l.bits - l.countLeadingZeros + r.bits by omega]
          exact append_lt hl (h.2.1.value_lt ρ)
  | ext _ k e b ih =>
      have hv := h.value_lt ρ
      cases k with
      | zext =>
          have hle : b - (b - e.bits) = e.bits := by have := h.2.2; omega
          simp only [countLeadingZeros, bits, value, ExtKind.apply, hle, BitVec.toNat_setWidth]
          exact Nat.lt_of_le_of_lt (Nat.mod_le ..) (BitVec.isLt _)
      | sext => simpa [countLeadingZeros, bits] using hv
  | _ => simpa [countLeadingZeros] using h.value_lt ρ

end Expr

end Qsym
