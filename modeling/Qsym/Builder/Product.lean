import Qsym.Builder.Arith

/-!
# Qsym.Builder.Product

Products, unsigned quotients and their narrowing: the rest of the mutual recursion
of `Qsym.Builder.Arith`, and the induction that closes it (`arith_meets`).
-/

namespace Qsym

open Procedure Qsym.Expr Bits

namespace SymbolicExprBuilder

variable {σ : Session} {stops : Prop} {ok : MethodCall → Prop} {E : Input → Prop}
variable {next : ExprBuilder} {l r e : Expr} {n : Nat}
variable (h : CompletesOn σ stops ok E true next)

/-! ### `createMul` -/

include h in
theorem mulConst_meets (hl : l.IsBV n) (hr : r.IsBV n) (hkl : l.isConstant = true)
    (hkr : r.isConstant = false) (ih : Below σ stops ok E next (.binary .mul l r)) :
    Completes σ stops ok (createMulConst (.symbolic :: next) next l r)
      ((Call.binary .mul l r).Meets E true) := by
  have hnext := next_binary h (k := .mul) rfl rfl hl hr
  have hnc : l.isConstant = true → r.isConstant = true → False := by simp [hkr]
  have hlw := weight_of_isConstant hkl
  have hw : (Call.binary .mul l r).plain.weight = 1 + l.weight + r.weight :=
    hl.weight_binary (by decide) 0 r
  have before : ∀ {x y : Expr}, x.IsBV n → 1 + x.weight + y.weight < 1 + l.weight + r.weight →
      (Call.binary .mul x y).Before (.binary .mul l r) := fun hx hlt =>
    .of_weight (by rw [hw]; exact (hx.weight_binary (k := .mul) (by decide) 0 _).trans_lt hlt)
  unfold createMulConst
  split
  next ref c x =>
      obtain ⟨hc, hx⟩ := hr.operands
      have hrw : (Expr.binary ref .mul c x).weight = 1 + c.weight + x.weight :=
        hc.weight_binary (by decide) ref x
      split
      next hkc =>
          have hcw := weight_of_isConstant hkc
          refine Terminates.bind (ih.binary (k := .mul) (by decide) hl hc (before hl (by omega))) ?_
          rintro d ⟨hd, hvd, -, hkd⟩
          have hdw := weight_of_isConstant (hkd ⟨hkl, hkc⟩)
          refine (ih.binary (k := .mul) (by decide) hd hx (before hd (by omega))).mono fun z hz =>
            hz.meets (by decide) hl hr hnc (fun ρ hρ => ?_) (by simp only [kindWeight]; omega)
          rw [bv_binary ρ ref .mul hc.bits, hvd ρ hρ]
          simp only [BinaryKind.apply]; ring
      next => exact hnext
  next ref c x =>
      obtain ⟨hc, hx⟩ := hr.operands
      have hrw : (Expr.binary ref .add c x).weight = 2 + c.weight + x.weight :=
        weight_sum (.inl rfl) hc ref
      split
      next hkc =>
          have hcw := weight_of_isConstant hkc
          refine Terminates.bind (ih.binary (k := .mul) (by decide) hl hc (before hl (by omega))) ?_
          rintro d ⟨hd, hvd, -, hkd⟩
          have hkd := hkd ⟨hkl, hkc⟩
          have hdw := weight_of_isConstant hkd
          refine Terminates.bind (ih.binary (k := .mul) (by decide) hl hx (before hl (by omega))) ?_
          rintro y ⟨hy, hvy, hwy, -⟩
          simp only [kindWeight] at hwy
          have hb : (Call.binary .add d y).Before (.binary .mul l (.binary ref .add c x)) :=
            .of_rank (by rw [hw, Call.plain, Call.node, weight_sum (.inl rfl) hd]; omega)
              (by simp [Call.rank, hkd])
          refine (ih.binary (k := .add) (by decide) hd hy hb).mono fun z hz =>
            hz.meets (by decide) hl hr hnc (fun ρ hρ => ?_) (by simp only [kindWeight]; omega)
          rw [bv_binary ρ ref .add hc.bits, hvd ρ hρ, hvy ρ hρ]
          simp only [BinaryKind.apply]; ring
      next => exact hnext
  next => exact hnext

include h in
theorem mul_meets (hl : l.IsBV n) (hr : r.IsBV n)
    (ih : Below σ stops ok E next (.binary .mul l r)) :
    Completes σ stops ok (createMul (.symbolic :: next) next l r)
      ((Call.binary .mul l r).Meets E true) := by
  unfold createMul
  split
  next hk => exact mulConst_meets h hl hr hk.2 hk.1 ih
  next => exact next_binary h rfl rfl hl hr

/-! ### `createUDiv` -/

theorem value_udiv (hl : l.IsBV n) (hr : r.IsBV n) (ρ : Input) (ref : Nat) :
    (Expr.binary ref .udiv l r).value ρ =
      if r.value ρ = 0 then 2 ^ n - 1 else l.value ρ / r.value ρ := by
  rw [value_binary ρ ref .udiv hl.bits, BinaryKind.apply, BitVec.smtUDiv_eq]
  have h0 : r.bv ρ n = 0#n ↔ r.value ρ = 0 := by
    rw [← hr.toNat_bv ρ, BitVec.toNat_eq, BitVec.toNat_ofNat, Nat.zero_mod]
  by_cases hz : r.value ρ = 0
  · rw [if_pos hz, if_pos (h0.2 hz), BitVec.toNat_allOnes]
  · rw [if_neg hz, if_neg (mt h0.1 hz), BitVec.toNat_udiv, hl.toNat_bv, hr.toNat_bv]

include h in
theorem udivNested_meets (hl : l.IsBV n) {ref : Nat} {v : BitVec n}
    (hkl : l.isConstant = false)
    (ih : Below σ stops ok E next (.binary .udiv l (.constant ref n v)))
    (hok : ∀ ρ, E ρ → DividesExactly (· = ρ) l v) :
    Completes σ stops ok (createUDivNested (.symbolic :: next) next l (.constant ref n v))
      ((Call.binary .udiv l (.constant ref n v)).Meets E true) := by
  have hr : (Expr.constant ref n v).IsBV n := isBV_constant hl.pos ref v
  have hnext : Completes σ stops ok (next.createUDiv l (.constant ref n v))
      ((Call.binary .udiv l (.constant ref n v)).Meets E true) :=
    h.completes (isBV_binary rfl hl hr 0).wellSorted (by simp [Call.traps, hkl])
  have hw : (Call.binary .udiv l (.constant ref n v)).plain.weight = 1 + l.weight :=
    hl.weight_binary (by decide) 0 _
  unfold createUDivNested
  split
  next ref' x c =>
      obtain ⟨hx, hc⟩ := hl.operands
      have hlw : (Expr.binary ref' .udiv x c).weight = 1 + x.weight + c.weight :=
        hx.weight_binary (by decide) ref' c
      split
      next hkc =>
          have hcw := weight_of_isConstant hkc
          have hb₁ : (Call.binary .mul c (.constant ref n v)).Before
              (.binary .udiv (.binary ref' .udiv x c) (.constant ref n v)) := .of_weight <| by
            rw [hw, Call.plain, Call.node, hc.weight_binary (by decide), weight_constant]
            simp only [kindWeight]; omega
          refine Terminates.bind (ih.binary (k := .mul) (by decide) hc hr hb₁) ?_
          rintro d ⟨hd, hvd, -, hkd⟩
          have hdw := weight_of_isConstant (hkd ⟨hkc, rfl⟩)
          have hb₂ : (Call.binary .udiv x d).Before
              (.binary .udiv (.binary ref' .udiv x c) (.constant ref n v)) := .of_weight <| by
            rw [hw, Call.plain, Call.node, hx.weight_binary (by decide)]
            simp only [kindWeight]; omega
          refine (ih.binary (k := .udiv) (by decide) hx hd hb₂).mono fun z hz =>
            hz.meets (by decide) hl hr (by simp [isConstant]) (fun ρ hρ => ?_)
              (by simp only [kindWeight]; omega)
          rw [bv_binary ρ ref' .udiv hx.bits, hvd ρ hρ]
          simp only [BinaryKind.apply, bv_constant]
          exact hok ρ hρ hkc ρ rfl
      next => exact hnext
  next => exact hnext

include h in
theorem udivConst_meets (hl : l.IsBV n) {ref : Nat} {v : BitVec n}
    (hkl : l.isConstant = false)
    (ih : Below σ stops ok E next (.binary .udiv l (.constant ref n v)))
    (hok : ∀ ρ, E ρ → DividesExactly (· = ρ) l v) :
    Completes σ stops ok (createUDivConst (.symbolic :: next) next l (.constant ref n v) v)
      ((Call.binary .udiv l (.constant ref n v)).Meets E true) := by
  have hr : (Expr.constant ref n v).IsBV n := isBV_constant hl.pos ref v
  have hnested := udivNested_meets h hl hkl ih hok
  have hw : (Call.binary .udiv l (.constant ref n v)).plain.weight = 1 + l.weight :=
    hl.weight_binary (by decide) 0 _
  unfold createUDivConst
  split
  next ref' z x =>
      split
      next hfit =>
          obtain ⟨hz, hx, rfl⟩ := hl.parts
          obtain ⟨hz0, hactive⟩ := hfit
          obtain ⟨ref₀, m, rfl⟩ := isZero_iff.1 hz0
          have hlw : (Expr.concat ref' (.constant ref₀ m 0) x).weight = x.weight := by
            rw [weight_concat, weight_constant, Nat.zero_add]
          have hle : 0 + x.bits ≤ m + x.bits := by omega
          have hb₁ : (Call.extract (.constant ref (m + x.bits) v) 0 x.bits).Before
              (.binary .udiv (.concat ref' (.constant ref₀ m 0) x) (.constant ref _ v)) :=
            .of_weight (by rw [hw]; exact Nat.lt_of_lt_of_le (Nat.zero_lt_one) (by omega))
          refine Terminates.bind (ih.extract hr hx.pos hle hb₁) fun er her => ?_
          rw [Call.meets_extract_iff hr hx.pos hle] at her
          obtain ⟨her, hver, hwer, hker⟩ := her
          have herw := weight_of_isConstant (hker rfl)
          have hb₂ : (Call.binary .udiv x er).Before
              (.binary .udiv (.concat ref' (.constant ref₀ m 0) x) (.constant ref _ v)) := by
            refine .of_dividend ?_ rfl (by simp only [Call.dividend, size]; omega)
            rw [hw, Call.plain, Call.node, hx.weight_binary (by decide)]
            simp only [kindWeight]; omega
          refine Terminates.bind (ih.binary (k := .udiv) (by decide) hx her hb₂) ?_
          rintro q ⟨hq, hvq, hwq, -⟩
          refine (concat_meets h hz hq).mono fun y hy => ?_
          rw [Call.meets_concat_iff hz hq] at hy
          obtain ⟨hy, hvy, hwy, -⟩ := hy
          refine (Call.meets_binary_iff (by decide) hl hr).2 ⟨hy, fun ρ hρ => ?_, ?_, by rintro ⟨⟩⟩
          · have hvv : er.value ρ = v.toNat := by
              rw [hver ρ hρ]
              exact slice_zero_of_lt (Nat.lt_of_lt_of_le (toNat_lt_two_pow_getActiveBits v)
                (Nat.pow_le_pow_right Nat.two_pos hactive))
            have hv0 : v ≠ 0 := hok ρ hρ rfl hactive
            have hvne : v.toNat ≠ 0 := fun h0 => hv0 (BitVec.eq_of_toNat_eq (by simpa using h0))
            have hqv : q.value ρ = x.value ρ / v.toNat := by
              have hbv : q.bv ρ x.bits = (Expr.binary 0 .udiv x er).bv ρ x.bits :=
                (hvq ρ hρ).trans (bv_binary ρ 0 .udiv rfl).symm
              rw [value_eq_of_bv hq.1 (isBV_binary rfl hx her 0).1 hq.3
                (isBV_binary rfl hx her 0).3 hbv, value_udiv hx her, hvv, if_neg hvne]
            refine Eq.trans ?_ (bv_binary ρ 0 .udiv hl.bits)
            rw [bv, bv, hvy ρ hρ, hqv, value_udiv hl hr]
            simp [value, hvne]
          · rw [weight_constant] at hwy ⊢
            simp only [kindWeight] at hwq ⊢
            omega
      next => exact hnested
  next => exact hnested

include h in
theorem udiv_meets (hl : l.IsBV n) (hr : r.IsBV n)
    (ih : Below σ stops ok E next (.binary .udiv l r))
    (hok : FoldsPointwise E ⟨.symbolic :: next, .binary .udiv l r⟩) :
    Completes σ stops ok (createUDiv (.symbolic :: next) next l r)
      ((Call.binary .udiv l r).Meets E true) := by
  obtain ⟨ht, hok⟩ := hok
  have hnext : Completes σ stops ok (next.createUDiv l r)
      ((Call.binary .udiv l r).Meets E true) :=
    h.completes (isBV_binary rfl hl hr 0).wellSorted ht
  cases r with
  | constant ref m v =>
      obtain rfl : m = n := hr.bits
      rw [createUDiv]
      split
      next => exact hnext
      next hkl => exact udivConst_meets h hl (by simpa using hkl) ih fun ρ hρ => (hok ρ hρ).2
  | _ => exact hnext

/-! ### `createExtract` -/

/-- Narrowing keeps the low bits of the result: of a product always, of a quotient
or a remainder when no bit of the operands is lost. -/
theorem narrow_value {k : BinaryKind} {b : Nat} {el er : Expr} {ref : Nat} (ρ : Input)
    (hl : l.IsBV n) (hr : r.IsBV n) (hb : b ≤ n) (hel : el.IsBV b) (her : er.IsBV b)
    (hvl : el.value ρ = slice (l.value ρ) 0 b) (hvr : er.value ρ = slice (r.value ρ) 0 b)
    (hk : k = .mul ∨ (k = .udiv ∨ k = .urem) ∧ l.value ρ < 2 ^ b ∧ r.value ρ < 2 ^ b) :
    (k.apply (el.bv ρ b) (er.bv ρ b)).toNat = slice ((binary ref k l r).value ρ) 0 b := by
  rw [← value_binary ρ 0 k hel.bits]
  rcases hk with rfl | ⟨hk, hlb, hrb⟩
  · have hdvd : 2 ^ b ∣ 2 ^ n := Nat.pow_dvd_pow 2 hb
    rw [value_binary ρ 0 .mul hel.bits, value_binary ρ ref .mul hl.bits]
    simp only [BinaryKind.apply, BitVec.toNat_mul, hel.toNat_bv, her.toNat_bv, hl.toNat_bv,
      hr.toNat_bv, hvl, hvr, slice, Nat.pow_zero, Nat.div_one]
    rw [Nat.mod_mod_of_dvd _ hdvd, ← Nat.mul_mod]
  · rw [slice_zero_of_lt hlb] at hvl
    rw [slice_zero_of_lt hrb] at hvr
    rcases hk with rfl | rfl
    · rw [value_udiv hel her, value_udiv hl hr, hvl, hvr]
      split
      next =>
          have h1 := Nat.two_pow_pos b
          have h2 : 2 ^ n = 2 ^ b * 2 ^ (n - b) := by rw [← Nat.pow_add, Nat.add_sub_cancel' hb]
          have h3 := Nat.two_pow_pos (n - b)
          rw [slice, Nat.pow_zero, Nat.div_one, h2,
            show 2 ^ b * 2 ^ (n - b) - 1 = (2 ^ b - 1) + 2 ^ b * (2 ^ (n - b) - 1) by
              rw [Nat.mul_sub, Nat.mul_one]
              have := Nat.le_mul_of_pos_right (2 ^ b) h3
              omega,
            Nat.add_mul_mod_self_left, Nat.mod_eq_of_lt (by omega)]
      next => exact (slice_zero_of_lt ((Nat.div_le_self ..).trans_lt hlb)).symm
    · rw [value_binary ρ 0 .urem hel.bits, value_binary ρ ref .urem hl.bits]
      simp only [BinaryKind.apply, BitVec.toNat_umod, hel.toNat_bv, her.toNat_bv, hl.toNat_bv,
        hr.toNat_bv, hvl, hvr]
      exact (slice_zero_of_lt ((Nat.mod_le ..).trans_lt hlb)).symm

/-- What `canEvaluateTruncated` checks of the operands it narrows. -/
theorem fits_of_canEvaluateTruncated {k : BinaryKind} {ref b : Nat} (hl : l.IsBV n)
    (hr : r.IsBV n) (hb : b ≤ n) (hk : k = .mul ∨ k = .udiv ∨ k = .urem)
    (hc : (binary ref k l r).canEvaluateTruncated b = true) (ρ : Input) :
    k = .mul ∨ (k = .udiv ∨ k = .urem) ∧ l.value ρ < 2 ^ b ∧ r.value ρ < 2 ^ b := by
  refine hk.imp_right fun hk => ⟨hk, ?_⟩
  have hclz : n - b ≤ l.countLeadingZeros ∧ n - b ≤ r.countLeadingZeros := by
    rcases hk with rfl | rfl <;>
    · rw [canEvaluateTruncated, hl.bits] at hc
      exact (ite_eq_iff.1 hc).elim And.left fun h => nomatch h.2
  have fits : ∀ {x : Expr}, x.IsBV n → n - b ≤ x.countLeadingZeros → x.value ρ < 2 ^ b :=
    fun {x} hx hz => (hx.bits ▸ value_lt_of_countLeadingZeros hx.1 ρ).trans_le
      (Nat.pow_le_pow_right Nat.two_pos (by omega))
  exact ⟨fits hl hclz.1, fits hr hclz.2⟩

theorem narrow_meets {k : BinaryKind} {ref b : Nat} (hl : l.IsBV n) (hr : r.IsBV n)
    (hb0 : 0 < b) (hb : b ≤ n) (hk : k = .mul ∨ k = .udiv ∨ k = .urem)
    (hc : (binary ref k l r).canEvaluateTruncated b = true)
    (ih : Below σ stops ok E next (.extract (.binary ref k l r) 0 b)) :
    Completes σ stops ok (evaluateInDifferentType.narrow (.symbolic :: next) 0 b k l r)
      ((Call.extract (.binary ref k l r) 0 b).Meets E true) := by
  have hw1 : kindWeight k = 1 := by rcases hk with rfl | rfl | rfl <;> rfl
  have hlog : k.isLogical = false := by rcases hk with rfl | rfl | rfl <;> rfl
  have he : (Expr.binary ref k l r).IsBV n := isBV_binary hlog hl hr ref
  have hw : (Call.extract (.binary ref k l r) 0 b).plain.weight = 1 + l.weight + r.weight := by
    rw [Call.plain, Call.node, weight_extract, weightIn, if_neg (by omega), hw1]
    rfl
  have hlw := weightIn_le_weight l (i := 0) (b := b) (by rw [hl.bits]; omega)
  have hrw := weightIn_le_weight r (i := 0) (b := b) (by rw [hr.bits]; omega)
  have part : ∀ {x : Expr}, x.IsBV n → x.weightIn 0 b ≤ l.weight + r.weight →
      Completes σ stops ok (ExprBuilder.createExtract (.symbolic :: next) x 0 b)
        ((Call.extract x 0 b).Meets E true) := fun {x} hx hlt =>
    ih.extract hx hb0 (by omega) (.of_weight (by
      rw [hw, Call.plain, Call.node, weight_extract]; omega))
  unfold evaluateInDifferentType.narrow
  refine Terminates.bind (part hl (by omega)) fun _ _ =>
    Terminates.bind (part hr (by omega)) fun _ _ =>
    Terminates.bind (part hl (by omega)) fun el hel => Terminates.bind (part hr (by omega))
      fun er her => ?_
  rw [Call.meets_extract_iff hl hb0 (by omega)] at hel
  rw [Call.meets_extract_iff hr hb0 (by omega)] at her
  obtain ⟨hel, hvl, hwl, -⟩ := hel
  obtain ⟨her, hvr, hwr, -⟩ := her
  have hbef : (Call.binary k el er).Before (.extract (.binary ref k l r) 0 b) := by
    refine .of_rank ?_ (by rcases hk with rfl | rfl | rfl <;> exact Nat.lt_succ_self 3)
    rw [hw, Call.plain, Call.node, hel.weight_binary (by omega), hw1]
    omega
  refine (ih.binary (by omega) hel her hbef).mono ?_
  rintro z ⟨hz, hvz, hwz, -⟩
  refine (Call.meets_extract_iff he hb0 (by omega)).2 ⟨hz, fun ρ hρ => ?_, ?_, by rintro ⟨⟩⟩
  · rw [← hz.toNat_bv, hvz ρ hρ]
    exact narrow_value ρ hl hr hb hel her (hvl ρ hρ) (hvr ρ hρ)
      (fits_of_canEvaluateTruncated hl hr hb hk hc ρ)
  · have : (Expr.binary ref k l r).weightIn 0 b = 1 + l.weight + r.weight := hw
    omega

include h in
theorem extract_meets {e : Expr} {i b : Nat} (he : e.IsBV n) (hb : 0 < b) (hi : i + b ≤ n)
    (ih : Below σ stops ok E next (.extract e i b)) :
    Completes σ stops ok (createExtract (.symbolic :: next) next e i b)
      ((Call.extract e i b).Meets E true) := by
  have hnext : Completes σ stops ok (next.createExtract e i b)
      ((Call.extract e i b).Meets E true) := h.completes (isBV_extract he hb hi 0).wellSorted rfl
  rw [createExtract]
  split
  next hc =>
      obtain ⟨rfl, -, hc⟩ := hc
      have hbn : b ≤ n := by omega
      cases e with
      | binary ref k l r =>
          obtain ⟨hl, hr⟩ := he.operands
          cases k with
          | mul => exact narrow_meets hl hr hb hbn (.inl rfl) hc ih
          | udiv => exact narrow_meets hl hr hb hbn (.inr (.inl rfl)) hc ih
          | urem => exact narrow_meets hl hr hb hbn (.inr (.inr rfl)) hc ih
          | _ => exact hnext
      | _ => exact hnext
  next => exact hnext

/-! ### The induction -/

include h in
/-- **Arithmetic is right** wherever every call reached folds its divisions exactly. -/
theorem arith_meets
    (hexact : ∀ c, ok ⟨.symbolic :: next, c⟩ → FoldsPointwise E ⟨.symbolic :: next, c⟩)
    (c : Call) (ha : c.isArith = true) (hc : c.plain.WellSorted) :
    Completes σ stops ok (ExprBuilder.create (.symbolic :: next) c) (c.Meets E true) := by
  induction c using Call.before_wellFounded.induction with
  | h c ih =>
      have ih : Below σ stops ok E next c := fun c' hb ha' hc' => ih c' hb ha' hc'
      refine completes_create fun hok => ?_
      cases c with
      | extract e i b =>
          obtain ⟨hew, heb, hb0, hbe⟩ := hc
          exact extract_meets h ⟨hew, heb, rfl⟩ hb0 (by simpa [Nat.add_comm] using hbe) ih
      | binary k l r =>
          have hlog : k.isLogical = false := by cases k <;> first | rfl | simp [Call.isArith] at ha
          obtain ⟨hl, hr⟩ := IsBV.operands (show IsBV l.bits _ from ⟨hc, by
            simpa [isBoolean, Call.plain, Call.node] using hlog, rfl⟩)
          cases k with
          | add => exact add_meets h hl hr ih
          | sub => exact sub_meets h hl hr ih
          | mul => exact mul_meets h hl hr ih
          | udiv => exact udiv_meets h hl hr ih (hexact _ hok)
          | urem => exact h.completes hc (hexact _ hok).1
          | _ => simp [Call.isArith] at ha
      | _ => simp [Call.isArith] at ha

end SymbolicExprBuilder

end Qsym
