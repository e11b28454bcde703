import Qsym.Expr.Weight

/-!
# Qsym.Expr.Agrees

When one expression may **stand for** another: it is well-sorted, has the width
and the sort of the other, and the same value under every input of a set `E`.
Everything the builders do is stated with `Agrees`; `E` is all inputs for the
rewriting layers and can be a single input where a result is only meant to hold
for the run that is being traced.

Expressions that differ only in node identities agree, so the plain node of a call
can be written with any identity.
-/

namespace Qsym.Expr

open Bits

/-- A well-sorted bit vector expression of width `n`. -/
structure IsBV (n : Nat) (e : Expr) : Prop where
  wellSorted : e.WellSorted
  isBoolean : e.isBoolean = false
  bits : e.bits = n

/-- A well-sorted truth value. -/
structure IsBool (e : Expr) : Prop where
  wellSorted : e.WellSorted
  isBoolean : e.isBoolean = true

theorem IsBV.pos {n : Nat} {e : Expr} (h : e.IsBV n) : 0 < n :=
  h.bits ▸ h.wellSorted.bits_pos

theorem IsBV.toNat_bv {n : Nat} {e : Expr} (h : e.IsBV n) (ρ : Input) :
    (e.bv ρ n).toNat = e.value ρ :=
  h.wellSorted.toNat_bv h.bits ρ

theorem IsBV.value_lt {n : Nat} {e : Expr} (h : e.IsBV n) (ρ : Input) : e.value ρ < 2 ^ n :=
  h.bits ▸ h.wellSorted.value_lt ρ

theorem IsBool.bits {e : Expr} (h : e.IsBool) : e.bits = 1 :=
  h.wellSorted.bits_of_isBoolean h.isBoolean

theorem isBV_constant {n : Nat} (h : 0 < n) (ref : Nat) (v : BitVec n) :
    (constant ref n v).IsBV n :=
  ⟨h, rfl, rfl⟩

/-- Arithmetic, bitwise and shift nodes have bit vector operands of their width. -/
theorem wellSorted_binary_iff {ref : Nat} {k : BinaryKind} {l r : Expr}
    (hk : k.isLogical = false) :
    (binary ref k l r).WellSorted ↔ ∃ n, l.IsBV n ∧ r.IsBV n := by
  constructor
  · rintro ⟨hl, hr, hb, hbl, hbr⟩
    exact ⟨l.bits, ⟨hl, hbl.trans hk, rfl⟩, hr, hbr.trans hk, hb.symm⟩
  · rintro ⟨n, hl, hr⟩
    exact ⟨hl.wellSorted, hr.wellSorted, hl.bits.trans hr.bits.symm, hl.isBoolean.trans hk.symm,
      hr.isBoolean.trans hk.symm⟩

/-- Logical nodes have truth values as operands. -/
theorem wellSorted_logical_iff {ref : Nat} {k : BinaryKind} {l r : Expr}
    (hk : k.isLogical = true) :
    (binary ref k l r).WellSorted ↔ l.IsBool ∧ r.IsBool := by
  constructor
  · rintro ⟨hl, hr, -, hbl, hbr⟩
    exact ⟨⟨hl, hbl.trans hk⟩, hr, hbr.trans hk⟩
  · rintro ⟨hl, hr⟩
    exact ⟨hl.wellSorted, hr.wellSorted, hl.bits.trans hr.bits.symm, hl.isBoolean.trans hk.symm,
      hr.isBoolean.trans hk.symm⟩

theorem isBV_binary {n : Nat} {k : BinaryKind} {l r : Expr} (hk : k.isLogical = false)
    (hl : l.IsBV n) (hr : r.IsBV n) (ref : Nat) : (binary ref k l r).IsBV n :=
  ⟨(wellSorted_binary_iff hk).2 ⟨n, hl, hr⟩, hk, hl.bits⟩

theorem IsBV.operands {n ref : Nat} {k : BinaryKind} {l r : Expr}
    (h : (binary ref k l r).IsBV n) : l.IsBV n ∧ r.IsBV n := by
  have hk : k.isLogical = false := h.isBoolean
  obtain ⟨m, hl, hr⟩ := (wellSorted_binary_iff hk).1 h.wellSorted
  obtain rfl : m = n := hl.bits.symm.trans h.bits
  exact ⟨hl, hr⟩

theorem IsBV.parts {n ref : Nat} {l r : Expr} (h : (concat ref l r).IsBV n) :
    l.IsBV l.bits ∧ r.IsBV r.bits ∧ n = l.bits + r.bits :=
  ⟨⟨h.1.1, h.1.2.2.1, rfl⟩, ⟨h.1.2.1, h.1.2.2.2, rfl⟩, h.bits.symm⟩

theorem IsBV.weight_binary {n : Nat} {l : Expr} (h : l.IsBV n) {k : BinaryKind}
    (hk : kindWeight k ≠ 0) (ref : Nat) (r : Expr) :
    (binary ref k l r).weight = kindWeight k + l.weight + r.weight :=
  Expr.weight_binary (h.bits ▸ h.pos) hk

theorem isBV_concat {m n : Nat} {l r : Expr} (hl : l.IsBV m) (hr : r.IsBV n) (ref : Nat) :
    (concat ref l r).IsBV (m + n) :=
  ⟨⟨hl.wellSorted, hr.wellSorted, hl.isBoolean, hr.isBoolean⟩, rfl,
    congrArg₂ (· + ·) hl.bits hr.bits⟩

theorem isBV_extract {n : Nat} {e : Expr} (he : e.IsBV n) {i b : Nat} (hb : 0 < b)
    (h : i + b ≤ n) (ref : Nat) : (extract ref e i b).IsBV b :=
  ⟨⟨he.wellSorted, he.isBoolean, hb, he.bits ▸ h⟩, rfl, rfl⟩

/-! ### Truth values -/

section Truth

variable {e l r : Expr} {ρ : Input}

theorem IsBool.value_eq (h : e.IsBool) (ρ : Input) : e.value ρ = (e.truth ρ).toNat := by
  have h2 := h.wellSorted.value_lt_two h.isBoolean ρ
  rcases (by omega : e.value ρ = 0 ∨ e.value ρ = 1) with h | h <;> simp [truth, h]

theorem IsBool.bv_eq (h : e.IsBool) (ρ : Input) : e.bv ρ 1 = BitVec.ofBool (e.truth ρ) := by
  rw [bv, h.value_eq ρ]
  cases e.truth ρ <;> rfl

@[simp] theorem truth_bool (ref : Nat) (b : Bool) : (bool ref b).truth ρ = b := by
  cases b <;> rfl

theorem isBool_bool (ref : Nat) (b : Bool) : (bool ref b).IsBool := ⟨trivial, rfl⟩

theorem isBool_lnot (h : e.IsBool) (ref : Nat) : (unary ref .lnot e).IsBool :=
  ⟨⟨h.wellSorted, h.isBoolean⟩, rfl⟩

theorem truth_lnot (h : e.IsBool) (ref : Nat) : (unary ref .lnot e).truth ρ = !e.truth ρ := by
  rw [truth, value_unary ρ ref .lnot h.bits, h.bv_eq]
  cases e.truth ρ <;> rfl

theorem isBool_binary {k : BinaryKind} (hk : k.isLogical = true) (hl : l.IsBool) (hr : r.IsBool)
    (ref : Nat) : (binary ref k l r).IsBool :=
  ⟨(wellSorted_logical_iff hk).2 ⟨hl, hr⟩, hk⟩

theorem truth_land (hl : l.IsBool) (hr : r.IsBool) (ref : Nat) :
    (binary ref .land l r).truth ρ = (l.truth ρ && r.truth ρ) := by
  rw [truth, value_binary ρ ref .land hl.bits, hl.bv_eq, hr.bv_eq]
  cases l.truth ρ <;> cases r.truth ρ <;> rfl

theorem truth_lor (hl : l.IsBool) (hr : r.IsBool) (ref : Nat) :
    (binary ref .lor l r).truth ρ = (l.truth ρ || r.truth ρ) := by
  rw [truth, value_binary ρ ref .lor hl.bits, hl.bv_eq, hr.bv_eq]
  cases l.truth ρ <;> cases r.truth ρ <;> rfl

theorem truth_compare {k : CompareKind} {n : Nat} (h : l.bits = n) (ref : Nat) :
    (compare ref k l r).truth ρ = k.holds (l.bv ρ n) (r.bv ρ n) := by
  rw [truth, value_compare ρ ref k h]
  cases k.holds (l.bv ρ n) (r.bv ρ n) <;> rfl

theorem value_ite (ref : Nat) (c t f : Expr) :
    (ite ref c t f).value ρ = if c.truth ρ then t.value ρ else f.value ρ := by
  simp [value, truth]

end Truth

/-! ### Bitwise operations on parts -/

section Bitwise

variable {k : BinaryKind} {l r : Expr}

theorem isLogical_of_isBitwise (hk : k.isBitwise = true) : k.isLogical = false := by
  cases k <;> first | rfl | cases hk

theorem value_bitwise (hk : k.isBitwise = true) {n : Nat} (hl : l.IsBV n) (hr : r.IsBV n)
    (ρ : Input) (ref : Nat) :
    (binary ref k l r).value ρ = k.natOp (l.value ρ) (r.value ρ) := by
  rw [value_binary ρ ref k hl.bits, BinaryKind.toNat_apply_of_isBitwise hk, hl.toNat_bv,
    hr.toNat_bv]

/-- The high and the low part of a bitwise operation. -/
theorem value_bitwise_parts (hk : k.isBitwise = true) {m n : Nat} (hl : l.IsBV (m + n))
    (hr : r.IsBV (m + n)) (ρ : Input) (ref : Nat) :
    (binary ref k l r).value ρ =
      k.natOp (slice (l.value ρ) n m) (slice (r.value ρ) n m) * 2 ^ n +
        k.natOp (slice (l.value ρ) 0 n) (slice (r.value ρ) 0 n) := by
  rw [value_bitwise hk hl hr, ← BinaryKind.natOp_append hk (slice_lt ..) (slice_lt ..),
    append_split (hl.value_lt ρ), append_split (hr.value_lt ρ)]

theorem slice_concat_left {m n : Nat} (hl : l.IsBV m) (hr : r.IsBV n) (ρ : Input) (ref : Nat) :
    slice ((concat ref l r).value ρ) n m = l.value ρ := by
  rw [value, hr.bits, slice_append_high (hr.value_lt ρ) _ (Nat.le_refl n), Nat.sub_self,
    slice_zero_of_lt (hl.value_lt ρ)]

theorem slice_concat_right {n : Nat} (hr : r.IsBV n) (ρ : Input) (ref : Nat) :
    slice ((concat ref l r).value ρ) 0 n = r.value ρ := by
  rw [value, hr.bits, slice_append_low (hr.value_lt ρ) _ (Nat.zero_add n).le,
    slice_zero_of_lt (hr.value_lt ρ)]

end Bitwise

/-! ### Extensions -/

theorem value_zext {n w : Nat} {e : Expr} (h : e.IsBV n) (hw : n ≤ w) (ρ : Input) (ref : Nat) :
    (ext ref .zext e w).value ρ = e.value ρ := by
  rw [value, ExtKind.apply, BitVec.toNat_setWidth_of_le (h.bits ▸ hw)]
  exact h.wellSorted.toNat_bv rfl ρ

/-- Both extensions keep the bits of their operand. -/
theorem slice_ext_low {n w i b : Nat} {e : Expr} (h : e.IsBV n) (k : ExtKind) (hw : n ≤ w)
    (hi : i + b ≤ n) (ρ : Input) (ref : Nat) :
    slice ((ext ref k e w).value ρ) i b = slice (e.value ρ) i b := by
  cases k with
  | zext => rw [value_zext h hw]
  | sext =>
      obtain rfl := h.bits
      refine Nat.eq_of_testBit_eq fun j => ?_
      simp only [testBit_slice]
      by_cases hj : j < b
      · have hlt : j + i < e.bits := by omega
        rw [value, ExtKind.apply, BitVec.testBit_toNat, BitVec.getLsbD_signExtend, if_pos hlt,
          ← BitVec.testBit_toNat, ← bv, h.toNat_bv]
        simp [show j + i < w by omega]
      · simp [hj]

theorem slice_zext_high {n w i : Nat} {e : Expr} (h : e.IsBV n) (hw : n ≤ w) (hi : n ≤ i)
    (ρ : Input) (ref b : Nat) : slice ((ext ref .zext e w).value ρ) i b = 0 := by
  rw [value_zext h hw]
  exact slice_eq_zero_of_lt (Nat.lt_of_lt_of_le (h.value_lt ρ)
    (Nat.pow_le_pow_right Nat.two_pos hi)) b

/-- `e` may stand for `e'` under the inputs of `E`. -/
structure Agrees (E : Input → Prop) (e e' : Expr) : Prop where
  wellSorted : e.WellSorted
  bits : e.bits = e'.bits
  isBoolean : e.isBoolean = e'.isBoolean
  value : ∀ ρ, E ρ → e.value ρ = e'.value ρ

namespace Agrees

variable {E : Input → Prop} {e e' e'' : Expr}

theorem refl (h : e.WellSorted) : Agrees E e e :=
  ⟨h, rfl, rfl, fun _ _ => rfl⟩

theorem trans (h : Agrees E e e') (h' : Agrees E e' e'') : Agrees E e e'' :=
  ⟨h.wellSorted, h.bits.trans h'.bits, h.isBoolean.trans h'.isBoolean,
    fun ρ hρ => (h.value ρ hρ).trans (h'.value ρ hρ)⟩

theorem symm (h : Agrees E e e') (hw : e'.WellSorted) : Agrees E e' e :=
  ⟨hw, h.bits.symm, h.isBoolean.symm, fun ρ hρ => (h.value ρ hρ).symm⟩

/-- Fewer inputs, fewer obligations. -/
theorem anti {E' : Input → Prop} (h : Agrees E e e') (hE : ∀ ρ, E' ρ → E ρ) : Agrees E' e e' :=
  { h with value := fun ρ hρ => h.value ρ (hE ρ hρ) }

theorem isBV (h : Agrees E e e') {n : Nat} (h' : e'.IsBV n) : e.IsBV n :=
  ⟨h.wellSorted, h.isBoolean.trans h'.isBoolean, h.bits.trans h'.bits⟩

theorem isBool (h : Agrees E e e') (h' : e'.IsBool) : e.IsBool :=
  ⟨h.wellSorted, h.isBoolean.trans h'.isBoolean⟩

theorem bv (h : Agrees E e e') {ρ : Input} (hρ : E ρ) (n : Nat) : e.bv ρ n = e'.bv ρ n :=
  congrArg (BitVec.ofNat n) (h.value ρ hρ)

/-- Bit vectors of one width agree when their values do. -/
theorem of_isBV {n : Nat} (h : e.IsBV n) (h' : e'.IsBV n)
    (hv : ∀ ρ, E ρ → e.value ρ = e'.value ρ) : Agrees E e e' :=
  ⟨h.wellSorted, h.bits.trans h'.bits.symm, h.isBoolean.trans h'.isBoolean.symm, hv⟩

theorem of_bv {n : Nat} (h : e.IsBV n) (h' : e'.IsBV n)
    (hv : ∀ ρ, E ρ → e.bv ρ n = e'.bv ρ n) : Agrees E e e' :=
  of_isBV h h' fun ρ hρ => by rw [← h.toNat_bv, ← h'.toNat_bv, hv ρ hρ]

/-- Truth values agree when they are equivalent. -/
theorem of_isBool (h : e.IsBool) (h' : e'.IsBool)
    (hv : ∀ ρ, E ρ → e.truth ρ = e'.truth ρ) : Agrees E e e' :=
  ⟨h.wellSorted, h.bits.trans h'.bits.symm, h.isBoolean.trans h'.isBoolean.symm,
    fun ρ hρ => by rw [h.value_eq, h'.value_eq, hv ρ hρ]⟩

theorem truth (h : Agrees E e e') {ρ : Input} (hρ : E ρ) : e.truth ρ = e'.truth ρ := by
  rw [Expr.truth, Expr.truth, h.value ρ hρ]

/-! ### Congruence -/

variable {l l' r r' : Expr}

theorem concat (hl : Agrees E l l') (hr : Agrees E r r') {ref : Nat}
    (h : (Expr.concat ref l' r').WellSorted) (ref' : Nat) :
    Agrees E (.concat ref' l r) (.concat ref l' r') := by
  obtain ⟨-, -, hbl, hbr⟩ := h
  refine ⟨⟨hl.wellSorted, hr.wellSorted, hl.isBoolean.trans hbl, hr.isBoolean.trans hbr⟩,
    congrArg₂ (· + ·) hl.bits hr.bits, rfl, fun ρ hρ => ?_⟩
  simp only [Expr.value, hl.value ρ hρ, hr.value ρ hρ, hr.bits]

theorem extract (h : Agrees E e e') {ref i b : Nat}
    (hw : (Expr.extract ref e' i b).WellSorted) (ref' : Nat) :
    Agrees E (.extract ref' e i b) (.extract ref e' i b) := by
  obtain ⟨-, hb, h0, hi⟩ := hw
  refine ⟨⟨h.wellSorted, h.isBoolean.trans hb, h0, h.bits ▸ hi⟩, rfl, rfl, fun ρ hρ => ?_⟩
  simp only [Expr.value, h.value ρ hρ]

theorem binary (hl : Agrees E l l') (hr : Agrees E r r') {ref : Nat} {k : BinaryKind}
    (h : (Expr.binary ref k l' r').WellSorted) (ref' : Nat) :
    Agrees E (.binary ref' k l r) (.binary ref k l' r') := by
  obtain ⟨-, -, hb, hbl, hbr⟩ := h
  refine ⟨⟨hl.wellSorted, hr.wellSorted, by rw [hl.bits, hr.bits, hb], hl.isBoolean.trans hbl,
    hr.isBoolean.trans hbr⟩, hl.bits, rfl, fun ρ hρ => ?_⟩
  rw [value_binary ρ _ k hl.bits, value_binary ρ _ k rfl, hl.bv hρ, hr.bv hρ]

theorem compare (hl : Agrees E l l') (hr : Agrees E r r') {ref : Nat} {k : CompareKind}
    (h : (Expr.compare ref k l' r').WellSorted) (ref' : Nat) :
    Agrees E (.compare ref' k l r) (.compare ref k l' r') := by
  obtain ⟨-, -, hb, hbb, hk⟩ := h
  refine ⟨⟨hl.wellSorted, hr.wellSorted, by rw [hl.bits, hr.bits, hb],
    by rw [hl.isBoolean, hr.isBoolean, hbb], fun h => hl.isBoolean.trans (hk h)⟩,
    rfl, rfl, fun ρ hρ => ?_⟩
  rw [value_compare ρ _ k hl.bits, value_compare ρ _ k rfl, hl.bv hρ, hr.bv hρ]

theorem unary (h : Agrees E e e') {ref : Nat} {k : UnaryKind}
    (hw : (Expr.unary ref k e').WellSorted) (ref' : Nat) :
    Agrees E (.unary ref' k e) (.unary ref k e') := by
  refine ⟨⟨h.wellSorted, h.isBoolean.trans hw.2⟩, h.bits, rfl, fun ρ hρ => ?_⟩
  rw [value_unary ρ _ k h.bits, value_unary ρ _ k rfl, h.bv hρ]

theorem ext (h : Agrees E e e') {ref b : Nat} {k : ExtKind}
    (hw : (Expr.ext ref k e' b).WellSorted) (ref' : Nat) :
    Agrees E (.ext ref' k e b) (.ext ref k e' b) := by
  obtain ⟨-, hb, hle⟩ := hw
  refine ⟨⟨h.wellSorted, h.isBoolean.trans hb, h.bits ▸ hle⟩, rfl, rfl, fun ρ hρ => ?_⟩
  rw [Expr.value, Expr.value, h.value ρ hρ, h.bits]

theorem ite {c c' t t' f f' : Expr} (hc : Agrees E c c') (ht : Agrees E t t')
    (hf : Agrees E f f') {ref : Nat} (hw : (Expr.ite ref c' t' f').WellSorted) (ref' : Nat) :
    Agrees E (.ite ref' c t f) (.ite ref c' t' f') := by
  obtain ⟨-, -, -, hcb, htf, hb⟩ := hw
  refine ⟨⟨hc.wellSorted, ht.wellSorted, hf.wellSorted, hc.isBoolean.trans hcb,
    ht.isBoolean.trans (htf.trans hf.isBoolean.symm), ht.bits.trans (hb.trans hf.bits.symm)⟩,
    ht.bits, ht.isBoolean, fun ρ hρ => ?_⟩
  simp only [Expr.value, hc.value ρ hρ, ht.value ρ hρ, hf.value ρ hρ]

end Agrees

/-! ### Shallow equality -/

/-- Shallowly equal nodes differ at most in their identity. -/
theorem agrees_of_equalShallowly {e e' : Expr} (h : e.equalShallowly e' = true)
    (hw : e'.WellSorted) (E : Input → Prop) :
    Agrees E e e' ∧ e.weight = e'.weight ∧ e.isConstant = e'.isConstant := by
  cases e <;> cases e' <;> simp only [equalShallowly, Bool.and_eq_true, beq_iff_eq,
    Bool.false_eq_true] at h
  case bool.bool => subst h; exact ⟨⟨trivial, rfl, rfl, fun _ _ => rfl⟩, rfl, rfl⟩
  case constant.constant ref n v _ m w =>
      obtain ⟨rfl, hv⟩ := h
      obtain rfl := BitVec.eq_of_toNat_eq hv
      exact ⟨⟨hw, rfl, rfl, fun _ _ => rfl⟩, rfl, rfl⟩
  case read.read => subst h; exact ⟨.refl hw, rfl, rfl⟩
  case ite.ite =>
      obtain ⟨⟨rfl, rfl⟩, rfl⟩ := h
      exact ⟨⟨hw, rfl, rfl, fun _ _ => rfl⟩, rfl, rfl⟩
  case concat.concat | unary.unary =>
      obtain ⟨rfl, rfl⟩ := h
      exact ⟨⟨hw, rfl, rfl, fun _ _ => rfl⟩, rfl, rfl⟩
  case extract.extract | ext.ext | binary.binary | compare.compare =>
      obtain ⟨⟨rfl, rfl⟩, rfl⟩ := h
      exact ⟨⟨hw, rfl, rfl, fun _ _ => rfl⟩, rfl, rfl⟩

end Qsym.Expr
