import Qsym.Builder.Chain

/-!
# Qsym.Builder.Quotient

Exactly when `SymbolicExprBuilder::createUDiv` keeps the quotient. The method goes
down into the dividend, through `C(0, x)` and `x / C_0`, and multiplies the
divisors it passes modulo the width. `lastDivision` follows it down, keeping the
wrapped and the exact product side by side; the quotient survives if they are
equal, and otherwise only if it is zero either way.
-/

namespace Qsym

open Procedure Qsym.Expr Bits

namespace SymbolicExprBuilder

/-- The division that `createUDiv` comes to. -/
structure LastDivision where
  dividend : Expr
  /-- The divisor the code computes. -/
  divisor : Nat
  /-- The product of the divisors passed. -/
  product : Nat

/-- Where `createUDiv` by the constant `v` of width `n` comes to on a dividend, when
the divisors passed so far multiply to `d`. -/
def lastDivision : Expr → (n : Nat) → BitVec n → Nat → LastDivision
  | .concat ref z x, _, v, d =>
      if z.isZero ∧ getActiveBits v ≤ x.bits then lastDivision x x.bits (v.setWidth x.bits) d
      else ⟨.concat ref z x, v.toNat, d⟩
  | .binary _ .udiv x (.constant _ _ c), n, v, d =>
      lastDivision x n (c.setWidth n * v) (c.toNat * d)
  | e, _, v, d => ⟨e, v.toNat, d⟩

/-- The products agree, or both are above the dividend. -/
def KeepsQuotient (ρ : Input) (l r : Expr) : Prop :=
  match r with
  | .constant _ n v =>
      let q := lastDivision l n v v.toNat
      q.divisor = q.product ∨ q.dividend.value ρ < q.divisor
  | _ => True

/-- `SymbolicExprBuilder` in its chain. -/
abbrev builder : ExprBuilder :=
  [.symbolic, .common, .constantFolding, .cache, .base]

variable {σ : Session} {ρ : Input} {l r : Expr} {n : Nat}

/-- What an answer to the division `q` is worth. -/
def LastDivision.Answer (ρ : Input) (n : Nat) (q : LastDivision) (e : Expr) : Prop :=
  e.IsBV n ∧ (q.divisor = 0 → e.value ρ ≠ 0) ∧
    (q.divisor ≠ 0 → e.value ρ = q.dividend.value ρ / q.divisor)

/-- Dividing a constant by zero never returns. -/
theorem trap_answers {c : Call} (ht : c.traps = true) {Q : Expr → Prop} {T : Prop} (hT : T) :
    Answers (Qsym.body σ) (ExprBuilder.create [.common, .constantFolding, .cache, .base] c) Q
      T := by
  refine Answers.call ?_
  rw [common_of_traps _ ht]
  refine Answers.call ?_
  rw [constantFolding_of_traps _ ht]
  exact Answers.stop hT

/-- A division that is not rewritten. -/
theorem next_answers (σ : Session) (ρ : Input) (hl : l.IsBV n) (ref : Nat)
    (v : BitVec n) (d : Nat) :
    Answers (Qsym.body σ)
      (ExprBuilder.createUDiv [.common, .constantFolding, .cache, .base] l (.constant ref n v))
      (LastDivision.Answer ρ n ⟨l, v.toNat, d⟩) (v.toNat = 0) := by
  have hr := isBV_constant hl.pos ref v
  have hp : (Call.binary .udiv l (.constant ref n v)).plain.IsBV n := isBV_binary rfl hl hr 0
  by_cases ht : (Call.binary .udiv l (.constant ref n v)).traps = true
  · obtain ⟨ref', m, hz⟩ := isZero_iff.1 (Call.isZero_of_traps ht)
    cases hz
    exact trap_answers ht rfl
  · refine (Answers.of_total ((lower_refines σ fun _ => True).builds hp.wellSorted
      (by simpa using ht))).mono fun e he => ?_
    have hv : e.value ρ = if v.toNat = 0 then 2 ^ n - 1 else l.value ρ / v.toNat :=
      (he.agrees.value ρ trivial).trans (value_udiv hl hr ρ 0)
    refine ⟨he.agrees.isBV hp, fun h0 => ?_, fun h0 => ?_⟩
    · have := Nat.one_lt_two_pow (Nat.pos_iff_ne_zero.1 hl.pos)
      rw [hv, if_pos h0]
      omega
    · rw [hv, if_neg h0]

/-- Narrowing a constant. -/
theorem extractConst_builds {ref : Nat} {v : BitVec n} {b : Nat} (hb : 0 < b) (hn : b ≤ n) :
    Builds σ anyCall (ExprBuilder.createExtract builder (.constant ref n v) 0 b)
      (fun e => ∃ ref', e = .constant ref' b (v.setWidth b)) := by
  have hc : (Expr.constant ref n v).IsBV n := isBV_constant (by omega) ref v
  have hi : 0 + b ≤ n := by omega
  have hnext : Builds σ anyCall
      (ExprBuilder.createExtract [.common, .constantFolding, .cache, .base] (.constant ref n v) 0 b)
      (fun e => ∃ ref', e = .constant ref' b (v.setWidth b)) := by
    refine ((lower_refines σ fun _ => True).builds (c := .extract (.constant ref n v) 0 b)
      (isBV_extract hc hb hi 0).wellSorted rfl).mono fun e he => ?_
    rw [Call.meets_extract_iff hc hb hi] at he
    obtain ⟨hbv, hv, -, hk⟩ := he
    obtain ⟨ref', m, u, rfl⟩ := isConstant_iff.1 (hk rfl)
    obtain rfl : m = b := hbv.bits
    refine ⟨ref', congrArg _ (BitVec.eq_of_toNat_eq ?_)⟩
    rw [BitVec.toNat_setWidth]
    simpa [value, slice] using hv (fun _ => 0) trivial
  refine builds_create fun _ => ?_
  show Builds σ anyCall (createExtract builder _ (.constant ref n v) 0 b) _
  rw [createExtract]
  split <;> exact hnext

/-- Multiplying two constants. -/
theorem mulConst_builds (hn : 0 < n) {ref ref' : Nat} {c v : BitVec n} :
    Builds σ anyCall (ExprBuilder.createMul builder (.constant ref n c) (.constant ref' n v))
      (fun e => ∃ ref'', e = .constant ref'' n (c * v)) := by
  have hc := isBV_constant hn ref c
  have hv := isBV_constant hn ref' v
  refine builds_create fun _ => ((lower_refines σ fun _ => True).builds
    (c := .binary .mul (.constant ref n c) (.constant ref' n v))
    (isBV_binary rfl hc hv 0).wellSorted rfl).mono fun e he => ?_
  rw [Call.meets_binary_iff (by decide) hc hv] at he
  obtain ⟨hbv, he, -, hk⟩ := he
  obtain ⟨ref'', m, u, rfl⟩ := isConstant_iff.1 (hk rfl rfl)
  obtain rfl : m = n := hbv.bits
  refine ⟨ref'', congrArg _ ?_⟩
  simpa [BinaryKind.apply] using he (fun _ => 0) trivial

/-- `createUDiv` by a constant answers the division it comes to. It stops only if
the divisor there is zero. -/
theorem createUDiv_answers (σ : Session) (ρ : Input) (hl : l.IsBV n) (ref : Nat)
    (v : BitVec n) (d : Nat) :
    Answers (Qsym.body σ) (ExprBuilder.createUDiv builder l (.constant ref n v))
      (LastDivision.Answer ρ n (lastDivision l n v d)) ((lastDivision l n v d).divisor = 0) := by
  induction l generalizing n ref v d with
  | concat ref' z x _ ih =>
      obtain ⟨hz, hx, rfl⟩ := hl.parts
      refine Answers.call ?_
      show Answers _ (createUDiv builder _ (concat ref' z x) (.constant ref _ v)) _ _
      rw [createUDiv, if_neg (by simp [isConstant]), createUDivConst, lastDivision]
      split
      next hfit =>
          obtain ⟨ref₀, m, rfl⟩ := isZero_iff.1 hfit.1
          refine Answers.bind (.of_total (extractConst_builds hx.pos (Nat.le_add_left ..))) ?_
          rintro _ ⟨ref₁, rfl⟩
          refine Answers.bind (ih hx ref₁ _ d) fun q hq => ?_
          have hconcat := concat_meets (lower_completes σ (fun _ => True) False anyCall) hz hq.1
          refine (Answers.of_total hconcat.total).mono ?_
          intro e he
          rw [Call.meets_concat_iff hz hq.1] at he
          obtain ⟨he, hv, -, -⟩ := he
          have hev : e.value ρ = q.value ρ := by
            rw [hv ρ trivial]
            simp [value]
          exact ⟨he, hev ▸ hq.2.1, hev ▸ hq.2.2⟩
      next => exact next_answers σ ρ hl ref v d
  | binary ref' k x c ihx _ =>
      have hnext := next_answers σ ρ hl ref v d
      obtain ⟨hx, hc⟩ := hl.operands
      refine Answers.call ?_
      cases k with
      | udiv =>
          show Answers _ (createUDiv builder _ (binary ref' .udiv x c) (.constant ref _ v)) _ _
          rw [createUDiv, if_neg (by simp [isConstant]), createUDivConst, createUDivNested]
          · cases c with
            | constant ref₀ m c =>
                obtain rfl : m = n := hc.bits
                rw [if_pos (by rfl), lastDivision, BitVec.setWidth_eq]
                refine Answers.bind (.of_total (mulConst_builds hx.pos)) ?_
                rintro _ ⟨ref₁, rfl⟩
                exact ihx hx ref₁ _ _
            | _ => exact hnext
          · exact fun _ _ _ h => by cases h
      | _ => exact hnext
  | constant | read | extract | ext | unary | ite | bool | compare =>
      exact Answers.call (next_answers σ ρ hl ref v d)

/-- What the exact side says of a division `q` that is to give `quotient`. -/
def LastDivision.Exact (ρ : Input) (quotient : Nat) (q : LastDivision) : Prop :=
  0 < q.product ∧ quotient = q.dividend.value ρ / q.product ∧
    (q.divisor = q.product ∨ q.dividend.value ρ < q.product)

/-- `l / d` is the last dividend by the product of the divisors, and the divisor the
code computes is that product unless both quotients are zero. -/
theorem lastDivision_exact (hl : l.IsBV n) (hnz : l.DivisorsNonzero ρ) (v : BitVec n) {d : Nat}
    (hd : 0 < d) (hv : v.toNat = d ∨ 2 ^ n ≤ d) :
    (lastDivision l n v d).Exact ρ (l.value ρ / d) := by
  induction l generalizing n v d with
  | concat ref' z x _ ih =>
      have hlast : LastDivision.Exact ρ _ ⟨_, v.toNat, d⟩ :=
        ⟨hd, rfl, hv.imp_right (hl.value_lt ρ).trans_le⟩
      obtain ⟨-, hx, rfl⟩ := hl.parts
      rw [lastDivision]
      split
      next hfit =>
          obtain ⟨ref₀, m, rfl⟩ := isZero_iff.1 hfit.1
          have hfits : (v.setWidth x.bits).toNat = v.toNat := by
            rw [BitVec.toNat_setWidth]
            exact Nat.mod_eq_of_lt ((toNat_lt_two_pow_getActiveBits v).trans_le
              (Nat.pow_le_pow_right Nat.two_pos hfit.2))
          have hval : (concat ref' (constant ref₀ m 0) x).value ρ = x.value ρ := by simp [value]
          rw [hval]
          refine ih hx hnz.2 _ hd (hfits ▸ hv.imp_right fun h => ?_)
          exact (Nat.pow_le_pow_right Nat.two_pos (Nat.le_add_left ..)).trans h
      next => exact hlast
  | binary ref' k x c ihx _ =>
      have hlast : LastDivision.Exact ρ _ ⟨_, v.toNat, d⟩ :=
        ⟨hd, rfl, hv.imp_right (hl.value_lt ρ).trans_le⟩
      obtain ⟨hx, hc⟩ := hl.operands
      cases k with
      | udiv =>
          cases c with
          | constant ref₀ m c =>
              obtain rfl : m = n := hc.bits
              have hc0 : c.toNat ≠ 0 := hnz.2.2 rfl
              have hval : (binary ref' .udiv x (constant ref₀ m c)).value ρ =
                  x.value ρ / c.toNat := by
                rw [value_udiv hx hc]
                exact if_neg hc0
              rw [lastDivision, BitVec.setWidth_eq, hval, Nat.div_div_eq_div_mul]
              refine ihx hx hnz.1 _ (Nat.mul_pos (Nat.pos_of_ne_zero hc0) hd) ?_
              -- a product that wraps stays above every dividend
              rcases Nat.lt_or_ge (c.toNat * d) (2 ^ m) with hlt | hge
              · have hvd : v.toNat = d := hv.resolve_right fun h =>
                  absurd (h.trans (Nat.le_mul_of_pos_left d (Nat.pos_of_ne_zero hc0)))
                    (Nat.not_le.2 hlt)
                rw [BitVec.toNat_mul, hvd]
                exact .inl (Nat.mod_eq_of_lt hlt)
              · exact .inr hge
          | _ => exact hlast
      | _ => exact hlast
  | constant | read | extract | ext | unary | ite | bool | compare =>
      exact ⟨hd, rfl, hv.imp_right (hl.value_lt ρ).trans_le⟩

/-- A divisor that is not a constant is left alone. -/
theorem createUDiv_nonConst_builds (hl : l.IsBV n) (hr : r.IsBV n) (hkr : r.isConstant = false) :
    Builds σ anyCall (ExprBuilder.createUDiv builder l r)
      (fun e => Agrees (fun _ => True) e (.binary 0 .udiv l r)) := by
  have ht : (Call.binary .udiv l r).traps = false := by
    cases r with
    | constant => cases hkr
    | _ => exact Bool.and_false _
  have hnext : Builds σ anyCall
      (ExprBuilder.createUDiv [.common, .constantFolding, .cache, .base] l r)
      ((Call.binary .udiv l r).Meets (fun _ => True) true) :=
    (lower_refines σ fun _ => True).builds (isBV_binary rfl hl hr 0).wellSorted ht
  refine builds_create fun _ => Total.mono (P := (Call.binary .udiv l r).Meets (fun _ => True) true)
    ?_ fun e he => he.agrees
  cases r with
  | constant => cases hkr
  | _ => exact hnext

/-- What the two sides of a division come to. -/
theorem LastDivision.answer_iff {q : LastDivision} {quotient : Nat} (hq : q.Exact ρ quotient)
    {e : Expr} (he : q.Answer ρ n e) :
    e.value ρ = quotient ↔ q.divisor = q.product ∨ q.dividend.value ρ < q.divisor := by
  obtain ⟨hp, rfl, hd⟩ := hq
  obtain ⟨-, h0, h1⟩ := he
  rcases hd with hd | hlt
  · have hne : q.divisor ≠ 0 := by omega
    exact iff_of_true (by rw [h1 hne, hd]) (.inl hd)
  · rw [Nat.div_eq_of_lt hlt]
    by_cases hz : q.divisor = 0
    · exact iff_of_false (h0 hz) (by omega)
    · rw [h1 hz, Nat.div_eq_zero_iff]
      omega

/-- **Exactly when** `createUDiv` gives the quotient: the divisors it multiplies
together do not wrap, or the dividend is below their wrapped product anyway. -/
theorem createUDiv_keeps_iff (σ : Session) (w : World) {ρ : Input} {l r : Expr} {n : Nat}
    (hl : l.IsBV n) (hr : r.IsBV n) (hnz : (Expr.binary 0 .udiv l r).DivisorsNonzero ρ) :
    (∃ e w', Runs (Qsym.body σ) (ExprBuilder.createUDiv builder l r) w e w' ∧
        e.isBoolean = false ∧ e.bits = n ∧
        e.value ρ = (Expr.binary 0 .udiv l r).value ρ) ↔
      KeepsQuotient ρ l r := by
  obtain ⟨hnzl, -, hr0⟩ := hnz
  have hr0 : r.value ρ ≠ 0 := hr0 rfl
  cases r with
  | constant ref m v =>
      obtain rfl : m = n := hr.bits
      have hexact := lastDivision_exact (d := v.toNat) hl hnzl v (Nat.pos_of_ne_zero hr0) (.inl rfl)
      have hval : (Expr.binary 0 .udiv l (.constant ref m v)).value ρ = l.value ρ / v.toNat := by
        rw [value_udiv hl hr]
        exact if_neg hr0
      rw [hval, KeepsQuotient]
      obtain ⟨e, w', hrun, he⟩ | ⟨hz, hno⟩ :=
        createUDiv_answers σ ρ hl ref v v.toNat w
      · have hiff := LastDivision.answer_iff hexact he
        constructor
        · rintro ⟨e', w'', hrun', -, -, hv⟩
          rw [(hrun.unique hrun').1] at hiff
          exact hiff.1 hv
        · exact fun h => ⟨e, w', hrun, he.1.isBoolean, he.1.bits, hiff.2 h⟩
      · have hp := hexact.1
        refine iff_of_false (fun ⟨e, w', hrun, _⟩ => hno e w' hrun) fun h => ?_
        rcases h with h | h <;> omega
  | _ =>
      obtain ⟨e, w', hrun, -, ha⟩ :=
        createUDiv_nonConst_builds hl hr rfl w trivial fun _ _ => trivial
      refine iff_of_true ⟨e, w', hrun, ha.isBoolean, ha.bits.trans hl.bits, ?_⟩ trivial
      exact ha.value ρ trivial

/-- `(Read 0) / 16 / 16` over eight bits. -/
theorem createUDiv_nested_not_keeps : ∃ l r, l.IsBV 8 ∧ r.IsBV 8 ∧
    (Expr.binary 0 .udiv l r).DivisorsNonzero (fun _ => 255) ∧
    ¬ ∃ e w', Runs (Qsym.body quietSession) (ExprBuilder.createUDiv builder l r) (freshWorld 3)
      e w' ∧ e.isBoolean = false ∧ e.bits = 8 ∧
      e.value (fun _ => 255) = (Expr.binary 0 .udiv l r).value fun _ => 255 := by
  refine ⟨byteQuotient, .constant 2 8 16, ⟨by decide, rfl, rfl⟩, ⟨by decide, rfl, rfl⟩,
    by simp [DivisorsNonzero, byteQuotient, value], ?_⟩
  rintro ⟨e, w', hr, -, -, hv⟩
  have hrun : ((ExprBuilder.createUDiv builder byteQuotient (.constant 2 8 16)).run
      (exec (Qsym.body quietSession) 40) (freshWorld 3)).map (fun x => x.1.value fun _ => 255) =
        some 255 := by
    decide +kernel
  exact absurd ((hr.eq_of_run hrun).symm.trans hv) (by decide +kernel)

/-- `(Read 0) / 5 / 7`: the divisors multiply to 35. -/
theorem createUDiv_nested_keeps :
    (∃ e w', Runs (Qsym.body quietSession) (ExprBuilder.createUDiv builder
        (.binary 1 .udiv (.read 0) (.constant 0 8 5)) (.constant 2 8 7)) (freshWorld 3) e w' ∧
        e.isBoolean = false ∧ e.bits = 8 ∧ e.value (fun _ => 200) =
          (Expr.binary 0 .udiv (.binary 1 .udiv (.read 0) (.constant 0 8 5))
            (.constant 2 8 7)).value fun _ => 200) :=
  (createUDiv_keeps_iff quietSession (freshWorld 3)
    (l := .binary 1 .udiv (.read 0) (.constant 0 8 5)) (r := .constant 2 8 7)
    ⟨by decide, rfl, rfl⟩ ⟨by decide, rfl, rfl⟩ (by simp [DivisorsNonzero, value])).2
    (show _ ∨ _ from .inl (by decide))

end SymbolicExprBuilder

end Qsym
