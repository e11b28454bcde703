import Mathlib.Data.BitVec
import Qsym.Builder.Structural

/-!
# Qsym.Builder.Arith

Arithmetic in `SymbolicExprBuilder`: `createExtract`, `createAdd`, `createSub`,
`createMul` and `createUDiv` call each other without end in sight. They end
because of `Call.Before`: a rewriting step lowers the weight of the call, or keeps
it and lowers the rank, or is a division that goes into its dividend.

Two things can go wrong, both in a division: folding `(x / C_0) / C_1` into
`x / (C_0 * C_1)` and narrowing `C(0, x) / C` lose the quotient when the product
overflows or a divisor is zero. `FoldsExactly` says of one call that it does not,
and the methods are right whenever every call reached is such.
-/

namespace Qsym

open Procedure Qsym.Expr Bits

/-! ### The order of calls -/

namespace Call

/-- The methods that take part. -/
def isArith : Call → Bool
  | extract .. => true
  | binary .add _ _ | binary .sub _ _ | binary .mul _ _ | binary .udiv _ _
  | binary .urem _ _ => true
  | _ => false

/-- Among calls of one weight, narrowing comes before products, products before
sums, and a sum whose constant is in front is last. -/
def rank : Call → Nat
  | extract .. => 4
  | binary .mul _ _ | binary .udiv _ _ | binary .urem _ _ => 3
  | binary _ l _ => if l.isConstant then 1 else 2
  | _ => 0

/-- The size of the dividend. -/
def dividend : Call → Nat
  | binary _ l _ => l.size
  | _ => 0

/-- `c'` is closer to the end than `c`. -/
def Before (c' c : Call) : Prop :=
  Prod.Lex (· < ·) (Prod.Lex (· < ·) (· < ·))
    (c'.plain.weight, c'.rank, c'.dividend) (c.plain.weight, c.rank, c.dividend)

theorem before_wellFounded : WellFounded Before :=
  InvImage.wf _ (Prod.lex ⟨_, Nat.lt_wfRel.wf⟩ (Prod.lex ⟨_, Nat.lt_wfRel.wf⟩
    ⟨_, Nat.lt_wfRel.wf⟩)).wf

theorem Before.of_weight {c' c : Call} (h : c'.plain.weight < c.plain.weight) : c'.Before c :=
  .left _ _ h

theorem Before.of_rank {c' c : Call} (h : c'.plain.weight ≤ c.plain.weight)
    (hr : c'.rank < c.rank) : c'.Before c := by
  rcases Nat.lt_or_eq_of_le h with h | h
  · exact .left _ _ h
  · rw [Before, h]
    exact .right _ (.left _ _ hr)

theorem Before.of_dividend {c' c : Call} (h : c'.plain.weight ≤ c.plain.weight)
    (hr : c'.rank = c.rank) (hd : c'.dividend < c.dividend) : c'.Before c := by
  rcases Nat.lt_or_eq_of_le h with h | h
  · exact .left _ _ h
  · rw [Before, h, hr]
    exact .right _ (.right _ hd)

end Call

/-! ### Divisions that fold exactly -/

/-- Rewriting `l / v` keeps the quotient under the inputs of `E`. -/
def DividesExactly (E : Input → Prop) (l : Expr) {n : Nat} (v : BitVec n) : Prop :=
  match l with
  | .concat _ z x => z.isZero = true → getActiveBits v ≤ x.bits → v ≠ 0
  | .binary _ .udiv x c => c.isConstant = true → ∀ ρ, E ρ →
      (x.bv ρ n).smtUDiv (c.bv ρ n * v) = ((x.bv ρ n).smtUDiv (c.bv ρ n)).smtUDiv v
  | _ => True

/-- The call does not divide a constant by zero, and if `SymbolicExprBuilder` rewrites
it as a division, the quotient is kept. -/
def FoldsExactly (E : Input → Prop) (m : MethodCall) : Prop :=
  m.call.traps = false ∧
    match m with
    | ⟨.symbolic :: _, .binary .udiv l (.constant _ _ v)⟩ => DividesExactly E l v
    | _ => True

/-- `FoldsExactly` input by input, so that nothing is asked of a quotient where there is no
input to tell it by. -/
def FoldsPointwise (E : Input → Prop) (m : MethodCall) : Prop :=
  m.call.traps = false ∧ ∀ ρ, E ρ → FoldsExactly (· = ρ) m

theorem FoldsExactly.pointwise {E : Input → Prop} {m : MethodCall} (h : FoldsExactly E m) :
    FoldsPointwise E m := by
  obtain ⟨ht, h⟩ := h
  refine ⟨ht, fun ρ hρ => ⟨ht, ?_⟩⟩
  split at h
  next l ref n v =>
      unfold DividesExactly at h ⊢
      split at h
      next => exact h
      next =>
          rintro hk _ rfl
          exact h hk _ hρ
      next => trivial
  next => trivial

/-- `DividesExactly` at one input, as a test. -/
def dividesExactlyAt (ρ : Input) (l : Expr) {n : Nat} (v : BitVec n) : Bool :=
  match l with
  | .concat _ z x => !(z.isZero && getActiveBits v ≤ x.bits) || v != 0
  | .binary _ .udiv x c =>
      !c.isConstant ||
        (x.bv ρ n).smtUDiv (c.bv ρ n * v) == ((x.bv ρ n).smtUDiv (c.bv ρ n)).smtUDiv v
  | _ => true

theorem dividesExactlyAt_iff {ρ : Input} {l : Expr} {n : Nat} {v : BitVec n} :
    dividesExactlyAt ρ l v = true ↔ DividesExactly (· = ρ) l v := by
  unfold dividesExactlyAt DividesExactly
  split
  next z x => by_cases hz : z.isZero = true <;> simp [hz, imp_iff_not_or]
  next x c => by_cases hc : c.isConstant = true <;> simp [hc]
  next => simp

instance (ρ : Input) (l : Expr) {n : Nat} (v : BitVec n) :
    Decidable (DividesExactly (· = ρ) l v) :=
  decidable_of_iff _ dividesExactlyAt_iff

instance (ρ : Input) : DecidablePred (FoldsExactly (· = ρ)) := fun m => by
  unfold FoldsExactly
  split <;> infer_instance

namespace SymbolicExprBuilder

section

variable {σ : Session} {stops : Prop} {ok : MethodCall → Prop} {E : Input → Prop}
variable {next : ExprBuilder} {e l r x y : Expr} {n : Nat}

/-- The calls before `c` keep the contract. -/
def Below (σ : Session) (stops : Prop) (ok : MethodCall → Prop) (E : Input → Prop)
    (next : ExprBuilder)
    (c : Call) : Prop :=
  ∀ c' : Call, c'.Before c → c'.isArith = true → c'.plain.WellSorted →
    Completes σ stops ok (ExprBuilder.create (.symbolic :: next) c') (c'.Meets E true)

/-- `x` computes `f`, weighs at most `w`, and is a constant if `k` says so. -/
def Computes (E : Input → Prop) (n : Nat) (f : Input → BitVec n) (w : Nat) (k : Prop)
    (x : Expr) : Prop :=
  x.IsBV n ∧ (∀ ρ, E ρ → x.bv ρ n = f ρ) ∧ x.weight ≤ w ∧ (k → x.isConstant = true)

theorem Below.binary {c : Call} (ih : Below σ stops ok E next c) {k : BinaryKind}
    (hk : kindWeight k ≠ 0) (hl : l.IsBV n) (hr : r.IsBV n) (hb : (Call.binary k l r).Before c) :
    Completes σ stops ok (ExprBuilder.create (.symbolic :: next) (.binary k l r))
      (Computes E n (fun ρ => k.apply (l.bv ρ n) (r.bv ρ n))
        (kindWeight k + l.weight + r.weight) (l.isConstant = true ∧ r.isConstant = true)) := by
  have ha : (Call.binary k l r).isArith = true := by
    cases k <;> first | rfl | exact absurd rfl hk
  have hlog : k.isLogical = false := by cases k <;> first | rfl | exact absurd rfl hk
  refine (ih (.binary k l r) hb ha (isBV_binary hlog hl hr 0).wellSorted).mono fun x hx => ?_
  rw [Call.meets_binary_iff hk hl hr] at hx
  exact ⟨hx.1, hx.2.1, hx.2.2.1, fun h => hx.2.2.2 h.1 h.2⟩

theorem Below.extract {c : Call} (ih : Below σ stops ok E next c) (he : e.IsBV n) {i b : Nat}
    (hb : 0 < b) (hi : i + b ≤ n) (hbef : (Call.extract e i b).Before c) :
    Completes σ stops ok (ExprBuilder.createExtract (.symbolic :: next) e i b)
      ((Call.extract e i b).Meets E true) :=
  ih _ hbef rfl (isBV_extract he hb hi 0).wellSorted

/-- What a binary call owes when an operand is not a constant. -/
theorem Computes.meets {k : BinaryKind} {z : Expr} {f : Input → BitVec n} {w : Nat} {p : Prop}
    (hz : Computes E n f w p z) (hk : kindWeight k ≠ 0) (hl : l.IsBV n) (hr : r.IsBV n)
    (hnc : l.isConstant = true → r.isConstant = true → False)
    (hv : ∀ ρ, E ρ → f ρ = k.apply (l.bv ρ n) (r.bv ρ n))
    (hw : w ≤ kindWeight k + l.weight + r.weight) : (Call.binary k l r).Meets E true z :=
  (Call.meets_binary_iff hk hl hr).2 ⟨hz.1, fun ρ hρ => (hz.2.1 ρ hρ).trans (hv ρ hρ),
    hz.2.2.1.trans hw, fun hkl hkr => (hnc hkl hkr).elim⟩

variable (h : CompletesOn σ stops ok E true next)

include h in
/-- Handing a well-sorted call on to `next`. -/
theorem next_binary {k : BinaryKind} (hk : k.isLogical = false) (ht : k.isDivision = false)
    (hl : l.IsBV n) (hr : r.IsBV n) :
    Completes σ stops ok (next.create (.binary k l r)) ((Call.binary k l r).Meets E true) :=
  h.completes (isBV_binary hk hl hr 0).wellSorted (by simp [Call.traps, ht])

include h in
theorem neg_builds (hx : x.IsBV n) (hkx : x.isConstant = true) :
    Completes σ stops ok (ExprBuilder.createNeg (.symbolic :: next) x)
      (Computes E n (fun ρ => -x.bv ρ n) 0 True) := by
  have hw : (Call.unary .neg x).plain.WellSorted := ⟨hx.1, hx.2⟩
  refine completes_create fun _ => (h.completes hw rfl).mono fun z hz => ?_
  have hzc : z.isConstant = true := hz.constant rfl rfl hkx
  refine ⟨hz.agrees.isBV ⟨hw, rfl, hx.3⟩, fun ρ hρ => ?_, (weight_of_isConstant hzc).le,
    fun _ => hzc⟩
  exact (hz.agrees.bv hρ n).trans (bv_unary ρ 0 .neg hx.3)

/-! ### Sums and differences -/

/-- `Add` and `Sub`. -/
def IsSum (k : BinaryKind) : Prop :=
  k = .add ∨ k = .sub

theorem IsSum.kindWeight {k : BinaryKind} (hk : IsSum k) : kindWeight k = 2 := by
  rcases hk with rfl | rfl <;> rfl

theorem weight_sum {k : BinaryKind} (hk : IsSum k) (hl : l.IsBV n) (ref : Nat) :
    (Expr.binary ref k l r).weight = 2 + l.weight + r.weight := by
  rw [hl.weight_binary (by simp [hk.kindWeight]), hk.kindWeight]

/-- Two constants are put together, then the rest is added or subtracted. -/
theorem Below.foldConst {c : Call} (ih : Below σ stops ok E next c) {k₁ k₂ : BinaryKind}
    (hk₁ : IsSum k₁)
    (hk₂ : IsSum k₂) {a b d : Expr} (ha : a.IsBV n) (hb : b.IsBV n) (hd : d.IsBV n)
    (hka : a.isConstant = true) (hkb : b.isConstant = true) (hw : 2 + d.weight < c.plain.weight) :
    Completes σ stops ok
      (do
        let x ← ExprBuilder.create (.symbolic :: next) (.binary k₁ a b)
        ExprBuilder.create (.symbolic :: next) (.binary k₂ x d))
      (Computes E n (fun ρ => k₂.apply (k₁.apply (a.bv ρ n) (b.bv ρ n)) (d.bv ρ n))
        (2 + d.weight) False) := by
  have haw := weight_of_isConstant hka
  have hbw := weight_of_isConstant hkb
  have h₁ : (Call.binary k₁ a b).Before c :=
    .of_weight (by rw [Call.plain, Call.node, weight_sum hk₁ ha]; omega)
  refine Terminates.bind (ih.binary (by simp [hk₁.kindWeight]) ha hb h₁) ?_
  rintro x ⟨hx, hvx, -, hkx⟩
  have hxw := weight_of_isConstant (hkx ⟨hka, hkb⟩)
  have h₂ : (Call.binary k₂ x d).Before c :=
    .of_weight (by rw [Call.plain, Call.node, weight_sum hk₂ hx]; omega)
  refine (ih.binary (by simp [hk₂.kindWeight]) hx hd h₂).mono ?_
  rintro z ⟨hz, hvz, hwz, -⟩
  refine ⟨hz, fun ρ hρ => by simp only [hvz ρ hρ, hvx ρ hρ], ?_, False.elim⟩
  rw [hk₂.kindWeight] at hwz
  omega

/-- A constant is moved to the front of a sum or difference of two operands. -/
theorem Below.moveConst {c : Call} (ih : Below σ stops ok E next c) {k₁ k₂ : BinaryKind}
    (hk₁ : IsSum k₁)
    (hk₂ : IsSum k₂) {a b d : Expr} (ha : a.IsBV n) (hb : b.IsBV n) (hd : d.IsBV n)
    (hkd : d.isConstant = true) (hw : 4 + a.weight + b.weight ≤ c.plain.weight)
    (hr : 1 < c.rank) :
    Completes σ stops ok
      (do
        let x ← ExprBuilder.create (.symbolic :: next) (.binary k₁ a b)
        ExprBuilder.create (.symbolic :: next) (.binary k₂ d x))
      (Computes E n (fun ρ => k₂.apply (d.bv ρ n) (k₁.apply (a.bv ρ n) (b.bv ρ n)))
        (4 + a.weight + b.weight) False) := by
  have hdw := weight_of_isConstant hkd
  have h₁ : (Call.binary k₁ a b).Before c :=
    .of_weight (by rw [Call.plain, Call.node, weight_sum hk₁ ha]; omega)
  refine Terminates.bind (ih.binary (by simp [hk₁.kindWeight]) ha hb h₁) ?_
  rintro x ⟨hx, hvx, hwx, -⟩
  rw [hk₁.kindWeight] at hwx
  have hrank : (Call.binary k₂ d x).rank = 1 := by
    rcases hk₂ with rfl | rfl <;> simp [Call.rank, hkd]
  have h₂ : (Call.binary k₂ d x).Before c :=
    .of_rank (by rw [Call.plain, Call.node, weight_sum hk₂ hd]; omega) (hrank ▸ hr)
  refine (ih.binary (by simp [hk₂.kindWeight]) hd hx h₂).mono ?_
  rintro z ⟨hz, hvz, hwz, -⟩
  refine ⟨hz, fun ρ hρ => by simp only [hvz ρ hρ, hvx ρ hρ], ?_, False.elim⟩
  rw [hk₂.kindWeight] at hwz
  omega

theorem Computes.mono' {f g : Input → BitVec n} {w w' : Nat} {z : Expr}
    (hz : Computes E n f w False z) (hv : ∀ ρ, E ρ → f ρ = g ρ) (hw : w ≤ w') :
    Computes E n g w' False z :=
  ⟨hz.1, fun ρ hρ => (hz.2.1 ρ hρ).trans (hv ρ hρ), hz.2.2.1.trans hw, False.elim⟩

theorem Computes.mono {f g : Input → BitVec n} {w w' : Nat} {z : Expr}
    (hz : Computes E n f w False z) (hv : ∀ ρ, f ρ = g ρ) (hw : w ≤ w') :
    Computes E n g w' False z :=
  hz.mono' (fun ρ _ => hv ρ) hw

/-- What a rewritten sum owes. -/
theorem Computes.sum_meets {k : BinaryKind} (hk : IsSum k) {z : Expr} {f : Input → BitVec n}
    {w : Nat} (hl : l.IsBV n) (hr : r.IsBV n) (hnc : (Call.binary k l r).onConstants = false)
    (hz : Computes E n f w False z) (hw : w ≤ 2 + l.weight + r.weight)
    (hv : ∀ ρ, f ρ = k.apply (l.bv ρ n) (r.bv ρ n)) : (Call.binary k l r).Meets E true z := by
  refine hz.meets (by simp [hk.kindWeight]) hl hr (fun hkl hkr => ?_) (fun ρ _ => hv ρ)
    (by rwa [hk.kindWeight])
  simp [Call.onConstants, hkl, hkr] at hnc

include h in
theorem addConst_meets (hl : l.IsBV n) (hr : r.IsBV n) (hkl : l.isConstant = true)
    (hkr : r.isConstant = false) (ih : Below σ stops ok E next (.binary .add l r)) :
    Completes σ stops ok (createAddConst (.symbolic :: next) next l r)
      ((Call.binary .add l r).Meets E true) := by
  have hnext := next_binary h (k := .add) rfl rfl hl hr
  have hnc : (Call.binary .add l r).onConstants = false := by simp [Call.onConstants, hkr]
  have hw : (Call.binary .add l r).plain.weight = 2 + l.weight + r.weight :=
    weight_sum (.inl rfl) hl 0
  unfold createAddConst
  split
  next ref x y =>
      obtain ⟨hx, hy⟩ := hr.operands
      have hrw := weight_sum (r := y) (.inl rfl) hx ref
      split
      next hkx =>
          refine (ih.foldConst (.inl rfl) (.inl rfl) hl hx hy hkl hkx (by omega)).mono fun z hz =>
            hz.sum_meets (.inl rfl) hl hr hnc (by omega) fun ρ => ?_
          rw [bv_binary ρ ref .add hx.bits]
          simp only [BinaryKind.apply]; ring
      split
      next hky =>
          refine (ih.foldConst (.inl rfl) (.inl rfl) hl hy hx hkl hky (by omega)).mono fun z hz =>
            hz.sum_meets (.inl rfl) hl hr hnc (by omega) fun ρ => ?_
          rw [bv_binary ρ ref .add hx.bits]
          simp only [BinaryKind.apply]; ring
      next => exact hnext
  next ref x y =>
      obtain ⟨hx, hy⟩ := hr.operands
      have hrw := weight_sum (r := y) (.inr rfl) hx ref
      split
      next hkx =>
          refine (ih.foldConst (.inl rfl) (.inr rfl) hl hx hy hkl hkx (by omega)).mono fun z hz =>
            hz.sum_meets (.inl rfl) hl hr hnc (by omega) fun ρ => ?_
          rw [bv_binary ρ ref .sub hx.bits]
          simp only [BinaryKind.apply]; ring
      split
      next hky =>
          refine (ih.foldConst (.inr rfl) (.inl rfl) hl hy hx hkl hky (by omega)).mono fun z hz =>
            hz.sum_meets (.inl rfl) hl hr hnc (by omega) fun ρ => ?_
          rw [bv_binary ρ ref .sub hx.bits]
          simp only [BinaryKind.apply]; ring
      next => exact hnext
  next => exact hnext

include h in
theorem next_sum {k : BinaryKind} (hk : IsSum k) (hl : l.IsBV n) (hr : r.IsBV n) :
    Completes σ stops ok (next.create (.binary k l r))
      (Computes E n (fun ρ => k.apply (l.bv ρ n) (r.bv ρ n)) (2 + l.weight + r.weight) False) := by
  have hlog : k.isLogical = false := by rcases hk with rfl | rfl <;> rfl
  have hdiv : k.isDivision = false := by rcases hk with rfl | rfl <;> rfl
  refine (next_binary h hlog hdiv hl hr).mono fun z hz => ?_
  rw [Call.meets_binary_iff (by simp [hk.kindWeight]) hl hr, hk.kindWeight] at hz
  exact ⟨hz.1, hz.2.1, hz.2.2.1, False.elim⟩

include h in
theorem addRight_builds {c : Call} (hl : l.IsBV n) (hr : r.IsBV n) (ih : Below σ stops ok E next c)
    (hw : c.plain.weight = 2 + l.weight + r.weight) (hrank : 1 < c.rank) :
    Completes σ stops ok (createAddRight (.symbolic :: next) next l r)
      (Computes E n (fun ρ => l.bv ρ n + r.bv ρ n) (2 + l.weight + r.weight) False) := by
  have hnext := next_sum h (.inl rfl) hl hr
  unfold createAddRight
  split
  next ref x y =>
      obtain ⟨hx, hy⟩ := hr.operands
      have hrw := weight_sum (r := y) (.inl rfl) hx ref
      have hrv : ∀ ρ, (Expr.binary ref .add x y).bv ρ n = x.bv ρ n + y.bv ρ n := fun ρ =>
        bv_binary ρ ref .add hx.bits
      split
      next hkx =>
          have hxw := weight_of_isConstant hkx
          refine (ih.moveConst (.inl rfl) (.inl rfl) hl hy hx hkx (by omega) hrank).mono fun z hz =>
            hz.mono (fun ρ => ?_) (by omega)
          simp only [BinaryKind.apply, hrv]; ring
      split
      next hky =>
          have hyw := weight_of_isConstant hky
          refine (ih.moveConst (.inl rfl) (.inl rfl) hl hx hy hky (by omega) hrank).mono fun z hz =>
            hz.mono (fun ρ => ?_) (by omega)
          simp only [BinaryKind.apply, hrv]; ring
      next => exact hnext
  next ref x y =>
      obtain ⟨hx, hy⟩ := hr.operands
      have hrw := weight_sum (r := y) (.inr rfl) hx ref
      have hrv : ∀ ρ, (Expr.binary ref .sub x y).bv ρ n = x.bv ρ n - y.bv ρ n := fun ρ =>
        bv_binary ρ ref .sub hx.bits
      split
      next hkx =>
          have hxw := weight_of_isConstant hkx
          refine (ih.moveConst (.inr rfl) (.inl rfl) hl hy hx hkx (by omega) hrank).mono fun z hz =>
            hz.mono (fun ρ => ?_) (by omega)
          simp only [BinaryKind.apply, hrv]; ring
      split
      next hky =>
          have hyw := weight_of_isConstant hky
          refine Terminates.bind (neg_builds h hy hky) ?_
          rintro d ⟨hd, hvd, -, hkd⟩
          refine (ih.moveConst (.inl rfl) (.inl rfl) hl hx hd (hkd trivial) (by omega)
            hrank).mono fun z hz => hz.mono' (fun ρ hρ => ?_) (by omega)
          simp only [BinaryKind.apply, hrv, hvd ρ hρ]; ring
      next => exact hnext
  next => exact hnext

include h in
theorem addNonConst_meets (hl : l.IsBV n) (hr : r.IsBV n) (hkl : l.isConstant = false)
    (ih : Below σ stops ok E next (.binary .add l r)) :
    Completes σ stops ok (createAddNonConst (.symbolic :: next) next l r)
      ((Call.binary .add l r).Meets E true) := by
  have hnc : (Call.binary .add l r).onConstants = false := by simp [Call.onConstants, hkl]
  have hw : (Call.binary .add l r).plain.weight = 2 + l.weight + r.weight :=
    weight_sum (.inl rfl) hl 0
  have hrank : 1 < (Call.binary .add l r).rank := by simp [Call.rank, hkl]
  have hright := (addRight_builds h hl hr ih hw hrank).mono fun z hz =>
    hz.sum_meets (.inl rfl) hl hr hnc (Nat.le_refl _) fun _ => rfl
  have hleft := (addRight_builds h hr hl ih (by omega) hrank).mono fun z hz =>
    hz.sum_meets (.inl rfl) hl hr hnc (by omega) fun ρ => BitVec.add_comm _ _
  unfold createAddNonConst
  split
  next heq =>
      subst heq
      refine Terminates.bind (completes_create fun _ => h.constant (hl.bits ▸ hl.pos) _) ?_
      rintro _ ⟨ref, rfl⟩
      rw [hl.bits]
      have htwo := isBV_constant hl.pos ref (BitVec.ofNat n 2)
      have hb : (Call.binary .mul (.constant ref n (BitVec.ofNat n 2)) l).Before
          (.binary .add l l) := .of_weight <| by
        rw [hw, Call.plain, Call.node, htwo.weight_binary (by decide), weight_constant]
        simp only [kindWeight]; omega
      refine (ih.binary (k := .mul) (by decide) htwo hl hb).mono ?_
      rintro z ⟨hz, hvz, hwz, -⟩
      refine Computes.sum_meets (.inl rfl) hl hl hnc ⟨hz, hvz, hwz, False.elim⟩
        (by simp only [kindWeight, weight_constant]; omega) fun ρ => ?_
      rw [bv_constant]
      simp only [BinaryKind.apply]
      rw [show BitVec.ofNat n 2 = (2 : BitVec n) from rfl]; ring
  split
  next => exact hleft
  next => exact hleft
  next => exact hright

include h in
theorem add_meets (hl : l.IsBV n) (hr : r.IsBV n)
    (ih : Below σ stops ok E next (.binary .add l r)) :
    Completes σ stops ok (createAdd (.symbolic :: next) next l r)
      ((Call.binary .add l r).Meets E true) := by
  have hw : (Call.binary .add l r).plain.weight = 2 + l.weight + r.weight :=
    weight_sum (.inl rfl) hl 0
  unfold createAdd
  split
  next p hp =>
      have hext : ∀ e i b, e = l ∨ e = r → 0 < b → i + b ≤ n →
          Completes σ stops ok (ExprBuilder.createExtract (.symbolic :: next) e i b)
            ((Call.extract e i b).Meets E true) := by
        intro e i b he hb hi
        have hbv : e.IsBV n := by rcases he with rfl | rfl <;> assumption
        refine ih.extract hbv hb hi (.of_weight ?_)
        have hle := weightIn_le_weight e (hbv.bits.symm ▸ hi)
        rw [hw, Call.plain, Call.node, weight_extract]
        rcases he with rfl | rfl <;> omega
      have hexcl := exclusive_of_simplifyExclusiveExpr hp
      refine (simplifyExclusiveExpr_builds hl hr hext
        (fun hl hr => concat_meets h hl hr) hp).mono ?_
      rintro x ⟨hx, hv, hwx, hk⟩
      refine (Call.meets_binary_iff (by decide) hl hr).2 ⟨hx, fun ρ hρ => ?_,
        by simp only [kindWeight]; omega, hk⟩
      rw [BinaryKind.apply, bv_add_of_exclusive hl hr hexcl]
      refine BitVec.eq_of_toNat_eq ?_
      rw [hx.toNat_bv, hv ρ hρ, BitVec.toNat_or, hl.toNat_bv, hr.toNat_bv]
  split
  next => exact next_binary h rfl rfl hl hr
  next hkr =>
      split
      next hkl => exact addConst_meets h hl hr hkl (by simpa using hkr) ih
      next hkl => exact addNonConst_meets h hl hr (by simpa using hkl) ih

include h in
theorem subConst_meets (hl : l.IsBV n) (hr : r.IsBV n) (hkl : l.isConstant = true)
    (hkr : r.isConstant = false) (ih : Below σ stops ok E next (.binary .sub l r)) :
    Completes σ stops ok (createSubConst (.symbolic :: next) next l r)
      ((Call.binary .sub l r).Meets E true) := by
  have hnext := next_binary h (k := .sub) rfl rfl hl hr
  have hnc : (Call.binary .sub l r).onConstants = false := by simp [Call.onConstants, hkr]
  have hw : (Call.binary .sub l r).plain.weight = 2 + l.weight + r.weight :=
    weight_sum (.inr rfl) hl 0
  unfold createSubConst
  split
  next ref x y =>
      obtain ⟨hx, hy⟩ := hr.operands
      have hrw := weight_sum (r := y) (.inl rfl) hx ref
      split
      next hkx =>
          refine (ih.foldConst (.inr rfl) (.inr rfl) hl hx hy hkl hkx (by omega)).mono fun z hz =>
            hz.sum_meets (.inr rfl) hl hr hnc (by omega) fun ρ => ?_
          rw [bv_binary ρ ref .add hx.bits]
          simp only [BinaryKind.apply]; ring
      split
      next hky =>
          refine (ih.foldConst (.inr rfl) (.inr rfl) hl hy hx hkl hky (by omega)).mono fun z hz =>
            hz.sum_meets (.inr rfl) hl hr hnc (by omega) fun ρ => ?_
          rw [bv_binary ρ ref .add hx.bits]
          simp only [BinaryKind.apply]; ring
      next => exact hnext
  next ref x y =>
      obtain ⟨hx, hy⟩ := hr.operands
      have hrw := weight_sum (r := y) (.inr rfl) hx ref
      split
      next hkx =>
          refine (ih.foldConst (.inr rfl) (.inl rfl) hl hx hy hkl hkx (by omega)).mono fun z hz =>
            hz.sum_meets (.inr rfl) hl hr hnc (by omega) fun ρ => ?_
          rw [bv_binary ρ ref .sub hx.bits]
          simp only [BinaryKind.apply]; ring
      split
      next hky =>
          refine (ih.foldConst (.inl rfl) (.inr rfl) hl hy hx hkl hky (by omega)).mono fun z hz =>
            hz.sum_meets (.inr rfl) hl hr hnc (by omega) fun ρ => ?_
          rw [bv_binary ρ ref .sub hx.bits]
          simp only [BinaryKind.apply]; ring
      next => exact hnext
  next => exact hnext

include h in
theorem subRight_builds {c : Call} (hl : l.IsBV n) (hr : r.IsBV n) (ih : Below σ stops ok E next c)
    (hw : c.plain.weight = 2 + l.weight + r.weight) (hrank : 1 < c.rank) :
    Completes σ stops ok (createSubRight (.symbolic :: next) next l r)
      (Computes E n (fun ρ => l.bv ρ n - r.bv ρ n) (2 + l.weight + r.weight) False) := by
  have hnext := next_sum h (.inr rfl) hl hr
  unfold createSubRight
  split
  next ref x y =>
      obtain ⟨hx, hy⟩ := hr.operands
      have hrw := weight_sum (r := y) (.inl rfl) hx ref
      have hrv : ∀ ρ, (Expr.binary ref .add x y).bv ρ n = x.bv ρ n + y.bv ρ n := fun ρ =>
        bv_binary ρ ref .add hx.bits
      split
      next hkx =>
          have hxw := weight_of_isConstant hkx
          refine Terminates.bind (neg_builds h hx hkx) ?_
          rintro d ⟨hd, hvd, -, hkd⟩
          refine (ih.moveConst (.inr rfl) (.inl rfl) hl hy hd (hkd trivial) (by omega)
            hrank).mono fun z hz => hz.mono' (fun ρ hρ => ?_) (by omega)
          simp only [BinaryKind.apply, hrv, hvd ρ hρ]; ring
      split
      next hky =>
          have hyw := weight_of_isConstant hky
          refine Terminates.bind (neg_builds h hy hky) ?_
          rintro d ⟨hd, hvd, -, hkd⟩
          refine (ih.moveConst (.inr rfl) (.inl rfl) hl hx hd (hkd trivial) (by omega)
            hrank).mono fun z hz => hz.mono' (fun ρ hρ => ?_) (by omega)
          simp only [BinaryKind.apply, hrv, hvd ρ hρ]; ring
      next => exact hnext
  next ref x y =>
      obtain ⟨hx, hy⟩ := hr.operands
      have hrw := weight_sum (r := y) (.inr rfl) hx ref
      have hrv : ∀ ρ, (Expr.binary ref .sub x y).bv ρ n = x.bv ρ n - y.bv ρ n := fun ρ =>
        bv_binary ρ ref .sub hx.bits
      split
      next hkx =>
          have hxw := weight_of_isConstant hkx
          refine Terminates.bind (neg_builds h hx hkx) ?_
          rintro d ⟨hd, hvd, -, hkd⟩
          refine (ih.moveConst (.inl rfl) (.inl rfl) hl hy hd (hkd trivial) (by omega)
            hrank).mono fun z hz => hz.mono' (fun ρ hρ => ?_) (by omega)
          simp only [BinaryKind.apply, hrv, hvd ρ hρ]; ring
      split
      next hky =>
          have hyw := weight_of_isConstant hky
          refine (ih.moveConst (.inr rfl) (.inl rfl) hl hx hy hky (by omega) hrank).mono fun z hz =>
            hz.mono (fun ρ => ?_) (by omega)
          simp only [BinaryKind.apply, hrv]; ring
      next => exact hnext
  next => exact hnext

include h in
theorem subNonConst_meets (hl : l.IsBV n) (hr : r.IsBV n) (hkl : l.isConstant = false)
    (ih : Below σ stops ok E next (.binary .sub l r)) :
    Completes σ stops ok (createSubNonConst (.symbolic :: next) next l r)
      ((Call.binary .sub l r).Meets E true) := by
  have hnc : (Call.binary .sub l r).onConstants = false := by simp [Call.onConstants, hkl]
  have hw : (Call.binary .sub l r).plain.weight = 2 + l.weight + r.weight :=
    weight_sum (.inr rfl) hl 0
  have hrank : 1 < (Call.binary .sub l r).rank := by simp [Call.rank, hkl]
  have hright := (subRight_builds h hl hr ih hw hrank).mono fun z hz =>
    hz.sum_meets (.inr rfl) hl hr hnc (Nat.le_refl _) fun _ => rfl
  unfold createSubNonConst
  split
  next heq =>
      subst heq
      refine completes_create fun _ => (h.constant (hl.bits ▸ hl.pos) _).mono ?_
      rintro _ ⟨ref, rfl⟩
      rw [hl.bits]
      refine Computes.sum_meets (.inr rfl) hl hl hnc
        ⟨isBV_constant hl.pos ref 0, fun ρ _ => bv_constant .., (weight_constant ..).le, False.elim⟩
        (Nat.zero_le _) fun ρ => ?_
      exact (BitVec.sub_self _).symm
  split
  next ref x y _ =>
      obtain ⟨hx, hy⟩ := hl.operands
      have hlw := weight_sum (r := y) (.inl rfl) hx ref
      split
      next hkx =>
          have hxw := weight_of_isConstant hkx
          refine (ih.moveConst (.inr rfl) (.inl rfl) hy hr hx hkx (by omega) hrank).mono fun z hz =>
            hz.sum_meets (.inr rfl) hl hr hnc (by omega) fun ρ => ?_
          rw [bv_binary ρ ref .add hx.bits]
          simp only [BinaryKind.apply]; ring
      next => exact hright
  next ref x y _ =>
      obtain ⟨hx, hy⟩ := hl.operands
      have hlw := weight_sum (r := y) (.inr rfl) hx ref
      split
      next hkx =>
          have hxw := weight_of_isConstant hkx
          refine (ih.moveConst (.inl rfl) (.inr rfl) hy hr hx hkx (by omega) hrank).mono fun z hz =>
            hz.sum_meets (.inr rfl) hl hr hnc (by omega) fun ρ => ?_
          rw [bv_binary ρ ref .sub hx.bits]
          simp only [BinaryKind.apply]; ring
      next => exact hright
  next => exact hright

include h in
theorem sub_meets (hl : l.IsBV n) (hr : r.IsBV n)
    (ih : Below σ stops ok E next (.binary .sub l r)) :
    Completes σ stops ok (createSub (.symbolic :: next) next l r)
      ((Call.binary .sub l r).Meets E true) := by
  unfold createSub
  split
  next => exact next_binary h rfl rfl hl hr
  next hkr =>
      split
      next hkl => exact subConst_meets h hl hr hkl (by simpa using hkr) ih
      next hkl => exact subNonConst_meets h hl hr (by simpa using hkl) ih

end

end SymbolicExprBuilder

end Qsym
