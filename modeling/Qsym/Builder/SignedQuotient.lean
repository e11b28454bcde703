import Qsym.Bits.Signed
import Qsym.Builder.Quotient

/-!
# Qsym.Builder.SignedQuotient

Exactly when `SymbolicExprBuilder::createSDiv` keeps the signed quotient. The method
goes down into the dividend, through sign extensions and `x / C_0`, and multiplies
the divisors it passes modulo the width it has come to; under a sign extension it
also reads the divisor with the sign of the narrow width. A divisor of `-1` ends the
way down in a negation.

As for the unsigned quotient, `lastSDivision` keeps the wrapped and the exact product
side by side, as integers.
-/

namespace Qsym

open Procedure Qsym.Expr Bits

namespace Expr

/-- The value as a signed number of `n` bits. -/
def int (ρ : Input) (n : Nat) (e : Expr) : Int :=
  (e.bv ρ n).toInt

variable {e l r : Expr} {n : Nat}

theorem IsBV.int_of_value (he : e.IsBV n) {l : Expr} (hl : l.IsBV n) {ρ : Input} :
    e.value ρ = l.value ρ ↔ e.int ρ n = l.int ρ n := by
  constructor
  · intro h
    rw [int, int, bv, bv, h]
  · intro h
    rw [← he.toNat_bv, ← hl.toNat_bv, BitVec.eq_of_toInt_eq h]

theorem int_sext (he : e.IsBV n) {w : Nat} (hw : n ≤ w) (ρ : Input) (ref : Nat) :
    (ext ref .sext e w).int ρ w = e.int ρ n := by
  obtain rfl := he.bits
  rw [int, int, bv, value, ExtKind.apply, BitVec.ofNat_toNat, BitVec.setWidth_eq,
    BitVec.toInt_signExtend_of_le hw]
  rfl

theorem int_neg (he : e.IsBV n) (ρ : Input) (ref : Nat) :
    (unary ref .neg e).int ρ n = (e.int ρ n).tdiv (divisor n (e.int ρ n) (-1)) := by
  have hone : (-1#n).toInt = -1 := by
    rw [BitVec.neg_one_eq_allOnes, BitVec.toInt_allOnes, if_pos he.pos]
  rw [int, bv_unary ρ ref .neg he.bits, UnaryKind.apply, divisor]
  split
  next h =>
      have hmin : e.bv ρ n = BitVec.intMin n := BitVec.eq_of_toInt_eq
        (h.2.trans (BitVec.toInt_intMin_of_pos he.pos).symm)
      rw [hmin, BitVec.neg_intMin, Int.tdiv_one, int, hmin]
  next h =>
      have hne : e.bv ρ n ≠ BitVec.intMin n := fun hm => h ⟨rfl, by
        rw [int, hm, BitVec.toInt_intMin_of_pos he.pos]⟩
      rw [BitVec.toInt_neg_of_ne_intMin hne, Int.tdiv_neg, Int.tdiv_one]
      rfl

theorem int_sdiv (hl : l.IsBV n) (hr : r.int ρ n ≠ 0) (ref : Nat) :
    (binary ref .sdiv l r).int ρ n = (l.int ρ n).tdiv (divisor n (l.int ρ n) (r.int ρ n)) := by
  have hne : r.bv ρ n ≠ 0 := fun h => hr (by rw [int, h]; exact BitVec.toInt_zero)
  rw [int, bv_binary ρ ref .sdiv hl.bits]
  exact toInt_smtSDiv hl.pos _ hne

end Expr

namespace SymbolicExprBuilder

/-- The division that `createSDiv` comes to. -/
structure LastSDivision where
  dividend : Expr
  bits : Nat
  /-- The divisor the code computes. -/
  divisor : Int
  /-- The product of the divisors passed, where a `-1` under the most negative
  dividend counts as `1`. -/
  product : Int

/-- Where `createSDiv` by the constant `v` of width `n` comes to on a dividend, when
the divisors passed so far multiply to `d`. -/
def lastSDivision (ρ : Input) : Expr → (n : Nat) → BitVec n → Int → LastSDivision
  | .ext ref .sext x w, n, v, d =>
      if v ≠ BitVec.allOnes n ∧ getActiveBits v ≤ x.bits then
        lastSDivision ρ x x.bits (v.setWidth x.bits) d
      else ⟨.ext ref .sext x w, n, v.toInt, d⟩
  | .binary ref .sdiv x (.constant ref' m c), n, v, d =>
      if v = BitVec.allOnes n then
        ⟨.binary ref .sdiv x (.constant ref' m c), n, v.toInt, d⟩
      else
        lastSDivision ρ x n (c.setWidth n * v)
          (Bits.divisor n (x.int ρ n) (c.setWidth n).toInt * d)
  | e, n, v, d => ⟨e, n, v.toInt, d⟩

namespace LastSDivision

/-- The last dividend as a number. -/
def number (ρ : Input) (q : LastSDivision) : Int :=
  q.dividend.int ρ q.bits

/-- The products agree, or both are above the dividend. -/
def Keeps (ρ : Input) (q : LastSDivision) : Prop :=
  Bits.divisor q.bits (q.number ρ) q.divisor = q.product ∨
    (q.number ρ).natAbs < q.divisor.natAbs

/-- What an answer to the division `q` is worth. -/
def Answer (ρ : Input) (n : Nat) (q : LastSDivision) (e : Expr) : Prop :=
  e.IsBV n ∧ (q.divisor = 0 → e.int ρ n ≠ 0) ∧
    (q.divisor ≠ 0 →
      e.int ρ n = (q.number ρ).tdiv (Bits.divisor q.bits (q.number ρ) q.divisor))

/-- What the exact side says of a division `q` that is to give `quotient`. -/
def Exact (ρ : Input) (quotient : Int) (q : LastSDivision) : Prop :=
  0 < q.bits ∧ InRange q.bits (q.number ρ) ∧ InRange q.bits q.divisor ∧
    Tracks q.bits (q.number ρ) q.divisor q.product ∧ quotient = (q.number ρ).tdiv q.product

/-- What the two sides of a division come to. -/
theorem answer_iff {ρ : Input} {n : Nat} {q : LastSDivision} {quotient : Int}
    (hq : q.Exact ρ quotient) {e : Expr} (he : q.Answer ρ n e) :
    e.int ρ n = quotient ↔ q.Keeps ρ := by
  obtain ⟨hn, hx, hv, ht, rfl⟩ := hq
  obtain ⟨-, h0, h1⟩ := he
  by_cases hz : q.divisor = 0
  · have hexact : (q.number ρ).tdiv q.product = 0 := (hz ▸ ht).tdiv_eq_zero hn hx
    have hd : Bits.divisor q.bits (q.number ρ) q.divisor = 0 := by
      rw [hz, Bits.divisor, if_neg (by omega)]
    refine iff_of_false (fun h => h0 hz (h.trans hexact)) ?_
    rintro (h | h)
    · exact ht.1 (h.symm.trans hd)
    · rw [hz] at h
      exact Nat.not_lt_zero _ h
  · rw [h1 hz]
    exact ht.tdiv_eq_iff hn hx hv hz

/-- A division by zero keeps nothing. -/
theorem Exact.not_keeps {ρ : Input} {quotient : Int} {q : LastSDivision} (h : q.Exact ρ quotient)
    (hz : q.divisor = 0) : ¬ q.Keeps ρ := by
  obtain ⟨-, -, -, ht, -⟩ := h
  rintro (h | h)
  · refine ht.1 (h.symm.trans ?_)
    rw [hz, Bits.divisor, if_neg (by omega)]
  · rw [hz] at h
    exact Nat.not_lt_zero _ h

end LastSDivision

/-- The signed quotient survives. -/
def KeepsSignedQuotient (ρ : Input) (l r : Expr) : Prop :=
  match r with
  | .constant _ n v => (lastSDivision ρ l n v (divisor n (l.int ρ n) v.toInt)).Keeps ρ
  | _ => True

variable {σ : Session} {ρ : Input} {l r : Expr} {n : Nat}

/-- The layers below. -/
abbrev below : ExprBuilder :=
  [.common, .constantFolding, .cache, .base]

/-- A division that is not rewritten. -/
theorem nextSDiv_answers (σ : Session) (ρ : Input) (hl : l.IsBV n) (ref : Nat) (v : BitVec n)
    (d : Int) :
    Answers (Qsym.body σ)
      (ExprBuilder.createSDiv below l (.constant ref n v))
      (LastSDivision.Answer ρ n ⟨l, n, v.toInt, d⟩) (v.toInt = 0) := by
  have hr := isBV_constant hl.pos ref v
  have hp : (Call.binary .sdiv l (.constant ref n v)).plain.IsBV n := isBV_binary rfl hl hr 0
  by_cases ht : (Call.binary .sdiv l (.constant ref n v)).traps = true
  · obtain ⟨ref', m, hz⟩ := isZero_iff.1 (Call.isZero_of_traps ht)
    cases hz
    exact trap_answers ht BitVec.toInt_zero
  · refine (Answers.of_total ((lower_refines σ fun _ => True).builds hp.wellSorted
      (by simpa using ht))).mono fun e he => ?_
    have hv : e.bv ρ n = (l.bv ρ n).smtSDiv v := by
      rw [he.agrees.bv trivial, Call.plain, Call.node, bv_binary ρ 0 .sdiv hl.bits, bv_constant]
      rfl
    refine ⟨he.agrees.isBV hp, fun h0 hint => ?_, fun h0 => ?_⟩
    · obtain rfl : v = 0#n := BitVec.eq_of_toInt_eq (h0.trans BitVec.toInt_zero.symm)
      rw [int, hv, BitVec.smtSDiv_zero] at hint
      split at hint
      · have h1 := BitVec.eq_of_toInt_eq (hint.trans (BitVec.toInt_zero (w := n)).symm)
        simp [hl.pos.ne'] at h1
      · rw [BitVec.toInt_allOnes, if_pos hl.pos] at hint
        omega
    · have hne : v ≠ 0 := fun h => h0 (by rw [h]; exact BitVec.toInt_zero)
      rw [int, hv]
      exact toInt_smtSDiv hl.pos _ hne

/-- Division by `-1` is negation. -/
theorem negate_answers (σ : Session) (ρ : Input) (hl : l.IsBV n) (d : Int) :
    Answers (Qsym.body σ) (ExprBuilder.createNeg builder l)
      (LastSDivision.Answer ρ n ⟨l, n, (BitVec.allOnes n).toInt, d⟩)
      ((BitVec.allOnes n).toInt = 0) := by
  have hp : (Call.unary .neg l).plain.IsBV n := ⟨⟨hl.wellSorted, hl.isBoolean⟩, rfl, hl.bits⟩
  have hone : (BitVec.allOnes n).toInt = -1 := by rw [BitVec.toInt_allOnes, if_pos hl.pos]
  refine Answers.of_total (builds_create fun _ => Total.mono
    (P := (Call.unary .neg l).Meets (fun _ => True) true)
    ((lower_refines σ fun _ => True).builds hp.wellSorted rfl) fun e he => ?_)
  refine ⟨he.agrees.isBV hp, fun h0 => absurd (hone.symm.trans h0) (by omega), fun _ => ?_⟩
  have hv : e.int ρ n = (Expr.unary 0 .neg l).int ρ n :=
    congrArg BitVec.toInt (he.agrees.bv trivial n)
  rw [hv, int_neg hl, hone]
  rfl

theorem lastSDivision_allOnes (ρ : Input) (l : Expr) (n : Nat) (d : Int) :
    lastSDivision ρ l n (BitVec.allOnes n) d = ⟨l, n, (BitVec.allOnes n).toInt, d⟩ := by
  unfold lastSDivision
  split <;> simp

/-- The ways of `createSDiv` by a constant: a constant dividend, a divisor of `-1`,
and the rules on the dividend. -/
theorem createSDiv_ways (σ : Session) (ρ : Input) (hl : l.IsBV n) (ref : Nat) (v : BitVec n)
    (d : Int) (hk : l.isConstant = false)
    (h : v ≠ BitVec.allOnes n → Answers (Qsym.body σ)
      (match l with
        | .ext _ .sext x bits =>
            if getActiveBits v ≤ x.bits then do
              let er ← builder.createExtract (.constant ref n v) 0 x.bits
              let q ← builder.createSDiv x er
              builder.createSExt q bits
            else createSDivNested builder below l (.constant ref n v)
        | l => createSDivNested builder below l (.constant ref n v))
      (LastSDivision.Answer ρ n (lastSDivision ρ l n v d))
      ((lastSDivision ρ l n v d).divisor = 0)) :
    Answers (Qsym.body σ) (ExprBuilder.createSDiv builder l (.constant ref n v))
      (LastSDivision.Answer ρ n (lastSDivision ρ l n v d))
      ((lastSDivision ρ l n v d).divisor = 0) := by
  have hcall : Qsym.body σ ⟨builder, .binary .sdiv l (.constant ref n v)⟩ =
      createSDivConst builder below l (.constant ref n v) v := by
    show createSDiv builder below l (.constant ref n v) = _
    rw [createSDiv, if_neg (by simp [hk])]
  refine Answers.call ?_
  rw [hcall]
  unfold createSDivConst
  by_cases hv : v = BitVec.allOnes n
  · subst hv
    rw [if_pos (by simp [isAllOnes]), lastSDivision_allOnes]
    exact negate_answers σ ρ hl d
  · rw [if_neg (by simp [isAllOnes, hv])]
    exact h hv

/-- `createSDiv` by a constant answers the division it comes to. It stops only if
the divisor there is zero. -/
theorem createSDiv_answers (σ : Session) (ρ : Input) (hl : l.IsBV n) (ref : Nat) (v : BitVec n)
    (d : Int) :
    Answers (Qsym.body σ) (ExprBuilder.createSDiv builder l (.constant ref n v))
      (LastSDivision.Answer ρ n (lastSDivision ρ l n v d))
      ((lastSDivision ρ l n v d).divisor = 0) := by
  induction l generalizing n ref v d with
  | constant => exact Answers.call (nextSDiv_answers σ ρ hl ref v d)
  | ext ref' k x w ih =>
      refine createSDiv_ways σ ρ hl ref v d rfl fun hv => ?_
      cases k with
      | zext => exact nextSDiv_answers σ ρ hl ref v d
      | sext =>
          obtain ⟨hx, hxb, hw⟩ := hl.wellSorted
          obtain rfl : w = n := hl.bits
          have hx : x.IsBV x.bits := ⟨hx, hxb, rfl⟩
          simp only [lastSDivision, ne_eq, hv, not_false_eq_true, true_and]
          split
          next hfit =>
              refine Answers.bind (.of_total (extractConst_builds hx.pos hw)) ?_
              rintro _ ⟨ref₁, rfl⟩
              refine Answers.bind (ih hx ref₁ _ d) fun q hq => ?_
              have hp : (Call.ext .sext q w).plain.IsBV w :=
                ⟨⟨hq.1.wellSorted, hq.1.isBoolean, hq.1.bits.trans_le hw⟩, rfl, rfl⟩
              refine Answers.of_total (builds_create fun _ => Total.mono
                (P := (Call.ext .sext q w).Meets (fun _ => True) true)
                ((lower_refines σ fun _ => True).builds hp.wellSorted rfl) fun e he => ?_)
              have hev : e.int ρ w = q.int ρ x.bits :=
                (congrArg BitVec.toInt (he.agrees.bv trivial w)).trans (int_sext hq.1 hw ρ 0)
              exact ⟨he.agrees.isBV hp, hev ▸ hq.2.1, hev ▸ hq.2.2⟩
          next => exact nextSDiv_answers σ ρ hl ref v d
  | binary ref' k x c ihx _ =>
      obtain ⟨hx, hc⟩ := hl.operands
      refine createSDiv_ways σ ρ hl ref v d rfl fun hv => ?_
      have hnext := nextSDiv_answers σ ρ hl ref v d
      cases k with
      | sdiv =>
          cases c with
          | constant ref₀ m c =>
              obtain rfl : m = n := hc.bits
              simp only [createSDivNested, isConstant, if_true, lastSDivision, if_neg hv,
                BitVec.setWidth_eq]
              refine Answers.bind (.of_total (mulConst_builds hx.pos)) ?_
              rintro _ ⟨ref₁, rfl⟩
              exact ihx hx ref₁ _ _
          | _ => exact hnext
      | _ => exact hnext
  | concat | read | extract | unary | ite | bool | compare =>
      exact createSDiv_ways σ ρ hl ref v d rfl fun _ => nextSDiv_answers σ ρ hl ref v d

/-- The last division gives the quotient by the exact product. -/
theorem lastSDivision_exact (hl : l.IsBV n) (hnz : l.DivisorsNonzero ρ) (v : BitVec n) {d : Int}
    (ht : Tracks n (l.int ρ n) v.toInt d) :
    (lastSDivision ρ l n v d).Exact ρ ((l.int ρ n).tdiv d) := by
  induction l generalizing n v d with
  | ext ref' k x w ih =>
      have hlast : LastSDivision.Exact ρ _ ⟨_, n, v.toInt, d⟩ :=
        ⟨hl.pos, inRange_toInt _, inRange_toInt _, ht, rfl⟩
      cases k with
      | zext => exact hlast
      | sext =>
          obtain ⟨hx, hxb, hw⟩ := hl.wellSorted
          obtain rfl : w = n := hl.bits
          have hx : x.IsBV x.bits := ⟨hx, hxb, rfl⟩
          rw [lastSDivision]
          split
          next =>
              rw [int_sext hx hw] at ht ⊢
              exact ih hx hnz _ (ht.narrow hx.pos hw (inRange_toInt _) (dvd_toInt_setWidth hw v))
          next => exact hlast
  | binary ref' k x c ihx _ =>
      have hlast : LastSDivision.Exact ρ _ ⟨_, n, v.toInt, d⟩ :=
        ⟨hl.pos, inRange_toInt _, inRange_toInt _, ht, rfl⟩
      obtain ⟨hx, hc⟩ := hl.operands
      cases k with
      | sdiv =>
          cases c with
          | constant ref₀ m c =>
              obtain rfl : m = n := hc.bits
              rw [lastSDivision]
              split
              next => exact hlast
              next =>
                  have hc0 : c.toInt ≠ 0 := fun h => hnz.2.2 rfl (by
                    rw [value, BitVec.eq_of_toInt_eq (h.trans BitVec.toInt_zero.symm)]
                    rfl)
                  have hr : (constant ref₀ m c).int ρ m = c.toInt := by rw [int, bv_constant]
                  have hval := int_sdiv (ρ := ρ) hx (by rwa [hr]) ref'
                  rw [hr] at hval
                  rw [hval] at ht ⊢
                  rw [BitVec.setWidth_eq, tdiv_tdiv]
                  exact ihx hx hnz.1 _ (ht.div (inRange_toInt _) hc0 (dvd_toInt_mul c v))
          | _ => exact hlast
      | _ => exact hlast
  | constant | read | concat | extract | unary | ite | bool | compare =>
      exact ⟨hl.pos, inRange_toInt _, inRange_toInt _, ht, rfl⟩

/-- A divisor that is not a constant is left alone. -/
theorem createSDiv_nonConst_builds (hl : l.IsBV n) (hr : r.IsBV n) (hkr : r.isConstant = false) :
    Builds σ anyCall (ExprBuilder.createSDiv builder l r)
      (fun e => Agrees (fun _ => True) e (.binary 0 .sdiv l r)) := by
  have ht : (Call.binary .sdiv l r).traps = false := by
    cases r with
    | constant => cases hkr
    | _ => exact Bool.and_false _
  have hnext : Builds σ anyCall
      (ExprBuilder.createSDiv below l r)
      ((Call.binary .sdiv l r).Meets (fun _ => True) true) :=
    (lower_refines σ fun _ => True).builds (isBV_binary rfl hl hr 0).wellSorted ht
  refine builds_create fun _ => Total.mono (P := (Call.binary .sdiv l r).Meets (fun _ => True) true)
    ?_ fun e he => he.agrees
  cases r with
  | constant => cases hkr
  | _ => exact hnext

/-- A division by a constant is to give the quotient of the plain node. -/
theorem lastSDivision_exact_plain (hl : l.IsBV n) (ref : Nat) {v : BitVec n} (hv : v.toInt ≠ 0)
    (hnz : l.DivisorsNonzero ρ) :
    (lastSDivision ρ l n v (divisor n (l.int ρ n) v.toInt)).Exact ρ
      ((Expr.binary 0 .sdiv l (.constant ref n v)).int ρ n) := by
  have hrv : (constant ref n v).int ρ n = v.toInt := by rw [int, bv_constant]
  have hval := int_sdiv (ρ := ρ) hl (by rwa [hrv]) 0
  rw [hrv] at hval
  rw [hval]
  exact lastSDivision_exact hl hnz v (tracks_divisor n (l.int ρ n) hv)

theorem toInt_ne_zero_of_value {ref : Nat} {v : BitVec n} (h : (constant ref n v).value ρ ≠ 0) :
    v.toInt ≠ 0 := by
  intro hzero
  refine h ?_
  rw [value, BitVec.eq_of_toInt_eq (hzero.trans BitVec.toInt_zero.symm)]
  rfl

/-- **Exactly when** `createSDiv` gives the signed quotient: the divisor it ends with
is the product of the divisors passed, or larger in magnitude than the dividend it
ends with. -/
theorem createSDiv_keeps_iff (σ : Session) (w : World) {ρ : Input} {l r : Expr} {n : Nat}
    (hl : l.IsBV n) (hr : r.IsBV n) (hnz : (Expr.binary 0 .sdiv l r).DivisorsNonzero ρ) :
    (∃ e w', Runs (Qsym.body σ) (ExprBuilder.createSDiv builder l r) w e w' ∧
        e.isBoolean = false ∧ e.bits = n ∧
        e.value ρ = (Expr.binary 0 .sdiv l r).value ρ) ↔
      KeepsSignedQuotient ρ l r := by
  obtain ⟨hnzl, -, hr0⟩ := hnz
  have hr0 : r.value ρ ≠ 0 := hr0 rfl
  have hp := isBV_binary (k := .sdiv) rfl hl hr 0
  cases r with
  | constant ref m v =>
      obtain rfl : m = n := hr.bits
      have hexact := lastSDivision_exact_plain hl ref (toInt_ne_zero_of_value hr0) hnzl
      obtain ⟨e, w', hrun, he⟩ | ⟨hz, hno⟩ :=
        createSDiv_answers σ ρ hl ref v (divisor m (l.int ρ m) v.toInt) w
      · have hiff := (he.1.int_of_value hp).trans (LastSDivision.answer_iff hexact he)
        constructor
        · rintro ⟨e', w'', hrun', -, -, hv⟩
          rw [(hrun.unique hrun').1] at hiff
          exact hiff.1 hv
        · exact fun h => ⟨e, w', hrun, he.1.isBoolean, he.1.bits, hiff.2 h⟩
      · exact iff_of_false (fun ⟨e, w', hrun, _⟩ => hno e w' hrun) (hexact.not_keeps hz)
  | _ =>
      obtain ⟨e, w', hrun, -, ha⟩ :=
        createSDiv_nonConst_builds hl hr rfl w trivial fun _ _ => trivial
      refine iff_of_true ⟨e, w', hrun, ha.isBoolean, ha.bits.trans hl.bits, ?_⟩ trivial
      exact ha.value ρ trivial

/-- A constant divisor divides as it should. -/
def DividesSigned (ρ : Input) (l r : Expr) : Prop :=
  r.isConstant = true → (Expr.binary 0 .sdiv l r).DivisorsNonzero ρ ∧ KeepsSignedQuotient ρ l r

theorem createSDiv_builds (σ : Session) {ρ : Input} {l r : Expr} {n : Nat} (hl : l.IsBV n)
    (hr : r.IsBV n) (h : DividesSigned ρ l r) :
    Builds σ anyCall (ExprBuilder.createSDiv builder l r) fun e =>
      e.IsBV n ∧ e.value ρ = (Expr.binary 0 .sdiv l r).value ρ := by
  have hp := isBV_binary (k := .sdiv) rfl hl hr 0
  by_cases hk : r.isConstant = true
  · obtain ⟨⟨hnzl, -, hr0⟩, hkeeps⟩ := h hk
    cases r with
    | constant ref m v =>
        obtain rfl : m = n := hr.bits
        have hexact := lastSDivision_exact_plain hl ref (toInt_ne_zero_of_value (hr0 rfl)) hnzl
        intro w _ _
        obtain ⟨e, w', hrun, he⟩ | ⟨hz, hno⟩ :=
          createSDiv_answers σ ρ hl ref v (divisor m (l.int ρ m) v.toInt) w
        · refine ⟨e, w', hrun, trivial, he.1, ?_⟩
          exact (he.1.int_of_value hp).2 ((LastSDivision.answer_iff hexact he).2 hkeeps)
        · exact absurd hkeeps (hexact.not_keeps hz)
    | _ => cases hk
  · refine (createSDiv_nonConst_builds hl hr (by simpa using hk)).mono fun e he => ?_
    exact ⟨he.isBV hp, he.value ρ trivial⟩

/-- A sign-extended byte divided by 128, which as a signed byte is -128. -/
theorem createSDiv_narrow_not_keeps : ∃ l r, l.IsBV 16 ∧ r.IsBV 16 ∧
    (Expr.binary 0 .sdiv l r).DivisorsNonzero (fun _ => 128) ∧
    ¬ ∃ e w', Runs (Qsym.body quietSession) (ExprBuilder.createSDiv builder l r) (freshWorld 3)
      e w' ∧ e.isBoolean = false ∧ e.bits = 16 ∧
      e.value (fun _ => 128) = (Expr.binary 0 .sdiv l r).value fun _ => 128 := by
  refine ⟨.ext 1 .sext (.read 0) 16, .constant 2 16 128, ⟨by decide, rfl, rfl⟩,
    ⟨by decide, rfl, rfl⟩, by simp [DivisorsNonzero, value], ?_⟩
  rintro ⟨e, w', hr, -, -, hv⟩
  have hrun : ((ExprBuilder.createSDiv builder (.ext 1 .sext (.read 0) 16)
      (.constant 2 16 128)).run (exec (Qsym.body quietSession) 40) (freshWorld 3)).map
        (fun x => x.1.value fun _ => 128) = some 1 := by
    decide +kernel
  exact absurd ((hr.eq_of_run hrun).symm.trans hv) (by decide +kernel)

/-- A sign-extended byte divided by 5 and by -7: the divisors multiply to -35. -/
theorem createSDiv_nested_keeps :
    (∃ e w', Runs (Qsym.body quietSession) (ExprBuilder.createSDiv builder
        (.binary 1 .sdiv (.ext 3 .sext (.read 0) 16) (.constant 0 16 5))
          (.constant 2 16 (-7))) (freshWorld 4) e w' ∧
        e.isBoolean = false ∧ e.bits = 16 ∧ e.value (fun _ => 200) =
          (Expr.binary 0 .sdiv (.binary 1 .sdiv (.ext 3 .sext (.read 0) 16) (.constant 0 16 5))
            (.constant 2 16 (-7))).value fun _ => 200) :=
  (createSDiv_keeps_iff quietSession (freshWorld 4)
    (l := .binary 1 .sdiv (.ext 3 .sext (.read 0) 16) (.constant 0 16 5))
    (r := .constant 2 16 (-7))
    ⟨by decide, rfl, rfl⟩ ⟨by decide, rfl, rfl⟩ (by simp [DivisorsNonzero, value])).2
    (show _ ∨ _ from .inl (by decide))

end SymbolicExprBuilder

end Qsym
