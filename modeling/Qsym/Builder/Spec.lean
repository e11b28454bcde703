import Qsym.Builder.Layers
import Qsym.Expr.Agrees
import Qsym.Procedure.Terminates

/-!
# Qsym.Builder.Spec

What it means for a builder to be **right**: `Call.Meets` is the contract of one
call, `Refines` says that a builder object keeps it for every well-sorted call.
Each layer is shown right from the rightness of its `next`, so a chain is right
by putting the layers together.

The contract has the semantic part, `Agrees` with the plain node under the inputs
of `E`, and two parts that only serve the termination of the rewriting above:
arithmetic never gains weight, and from constant folding on (`folds`) arithmetic
on constants gives a constant.
-/

namespace Qsym

open Procedure Qsym.Expr

namespace Call

/-- The calls whose results the rewriting of arithmetic keeps track of. -/
def isMeasured : Call → Bool
  | constant .. | concat .. | extract .. | unary .neg _ => true
  | binary k _ _ => kindWeight k ≠ 0
  | _ => false

/-- Every operand is a constant. -/
def onConstants : Call → Bool
  | concat l r | binary _ l r => l.isConstant && r.isConstant
  | extract e _ _ | unary _ e => e.isConstant
  | _ => false

/-- Folding the call would divide a constant by zero. -/
def traps : Call → Bool
  | binary k l r => k.isDivision && l.isConstant && r.isZero
  | _ => false

theorem isZero_of_traps {k : BinaryKind} {l r : Expr} (h : (binary k l r).traps = true) :
    r.isZero = true := by
  rw [traps, Bool.and_eq_true] at h
  exact h.2

/-- Calls that name a leaf. -/
def isLeaf : Call → Bool
  | bool _ | constant _ _ | read _ => true
  | _ => false

/-- `e` is an answer to `c`. -/
structure Meets (E : Input → Prop) (folds : Bool) (c : Call) (e : Expr) : Prop where
  agrees : Agrees E e c.plain
  leaf : c.isLeaf = true → ∃ ref, e = c.node ref
  weight : c.isMeasured = true → e.weight ≤ c.plain.weight
  constant : folds = true → c.isMeasured = true → c.onConstants = true → e.isConstant = true

theorem asserted_of_wellSorted {c : Call} (h : c.plain.WellSorted) : c.asserted = true := by
  cases c with
  | extract e i b => simpa [asserted, Nat.add_comm] using h.2.2.2
  | binary k l r => simpa [asserted] using h.2.2.1
  | compare k l r => simpa [asserted] using h.2.2.1
  | ite c t f => simpa [asserted] using h.2.2.2.2.2
  | _ => rfl

/-- The identity of a node plays no part in what it stands for. -/
theorem agrees_node {E : Input → Prop} {c : Call} (h : c.plain.WellSorted) (ref : Nat) :
    Agrees E (c.node ref) c.plain := by
  cases c <;> exact ⟨h, rfl, rfl, fun _ _ => rfl⟩

theorem weight_node (c : Call) (ref : Nat) : (c.node ref).weight = c.plain.weight := by
  cases c <;> rfl

theorem meets_node {E : Input → Prop} {c : Call} (h : c.plain.WellSorted) (ref : Nat) :
    c.Meets E false (c.node ref) :=
  ⟨agrees_node h ref, fun _ => ⟨ref, rfl⟩, fun _ => (c.weight_node ref).le, nofun⟩

/-! ### The contract, kind by kind -/

section Kinds

variable {E : Input → Prop} {e l r x : Expr}

theorem meets_extract_iff {n i b : Nat} (he : e.IsBV n) (hb : 0 < b) (hi : i + b ≤ n) :
    (extract e i b).Meets E true x ↔
      x.IsBV b ∧ (∀ ρ, E ρ → x.value ρ = Bits.slice (e.value ρ) i b) ∧
        x.weight ≤ e.weightIn i b ∧ (e.isConstant = true → x.isConstant = true) := by
  have hp := isBV_extract he hb hi 0
  constructor
  · intro h
    exact ⟨h.agrees.isBV hp, h.agrees.value, h.weight rfl, h.constant rfl rfl⟩
  · rintro ⟨hx, hv, hw, hk⟩
    exact ⟨.of_isBV hx hp hv, nofun, fun _ => hw, fun _ _ => hk⟩

theorem meets_concat_iff {m n : Nat} (hl : l.IsBV m) (hr : r.IsBV n) :
    (concat l r).Meets E true x ↔
      x.IsBV (m + n) ∧ (∀ ρ, E ρ → x.value ρ = l.value ρ * 2 ^ n + r.value ρ) ∧
        x.weight ≤ l.weight + r.weight ∧
        (l.isConstant = true → r.isConstant = true → x.isConstant = true) := by
  have hp := isBV_concat hl hr 0
  have hv : ∀ ρ, (concat l r).plain.value ρ = l.value ρ * 2 ^ n + r.value ρ := fun ρ => by
    rw [← hr.bits]; rfl
  have hw : (concat l r).plain.weight = l.weight + r.weight := weight_concat 0 l r
  constructor
  · intro h
    refine ⟨h.agrees.isBV hp, fun ρ hρ => (h.agrees.value ρ hρ).trans (hv ρ),
      hw ▸ h.weight rfl, fun hl' hr' => h.constant rfl rfl ?_⟩
    simp [onConstants, hl', hr']
  · rintro ⟨hx, hv', hw', hk⟩
    refine ⟨.of_isBV hx hp fun ρ hρ => (hv' ρ hρ).trans (hv ρ).symm, nofun, fun _ => hw ▸ hw',
      fun _ _ h => ?_⟩
    rw [onConstants, Bool.and_eq_true] at h
    exact hk h.1 h.2

theorem meets_binary_iff {k : BinaryKind} {n : Nat} (hk : kindWeight k ≠ 0) (hl : l.IsBV n)
    (hr : r.IsBV n) :
    (binary k l r).Meets E true x ↔
      x.IsBV n ∧ (∀ ρ, E ρ → x.bv ρ n = k.apply (l.bv ρ n) (r.bv ρ n)) ∧
        x.weight ≤ kindWeight k + l.weight + r.weight ∧
        (l.isConstant = true → r.isConstant = true → x.isConstant = true) := by
  have hlog : k.isLogical = false := by cases k <;> first | rfl | exact absurd rfl hk
  have hp := isBV_binary hlog hl hr 0
  have hv : ∀ ρ, (binary k l r).plain.bv ρ n = k.apply (l.bv ρ n) (r.bv ρ n) := fun ρ =>
    bv_binary ρ 0 k hl.bits
  have hw : (binary k l r).plain.weight = kindWeight k + l.weight + r.weight :=
    weight_binary (hl.bits ▸ hl.pos) hk
  have hm : (binary k l r).isMeasured = true := by simp [isMeasured, hk]
  constructor
  · intro h
    refine ⟨h.agrees.isBV hp, fun ρ hρ => (h.agrees.bv hρ n).trans (hv ρ), hw ▸ h.weight hm,
      fun hl' hr' => h.constant rfl hm ?_⟩
    simp [onConstants, hl', hr']
  · rintro ⟨hx, hv', hw', hc⟩
    refine ⟨.of_bv hx hp fun ρ hρ => (hv' ρ hρ).trans (hv ρ).symm, nofun, fun _ => hw ▸ hw',
      fun _ _ h => ?_⟩
    rw [onConstants, Bool.and_eq_true] at h
    exact hc h.1 h.2

/-- Kinds whose results are not tracked only have to agree. -/
theorem meets_of_agrees {c : Call} (hl : c.isLeaf = false) (hm : c.isMeasured = false)
    (h : Agrees E x c.plain) (folds : Bool) : c.Meets E folds x :=
  ⟨h, fun h => absurd h (by simp [hl]), fun h => absurd h (by simp [hm]),
    fun _ h => absurd h (by simp [hm])⟩

end Kinds

end Call

/-- Running `p` returns a value satisfying `Q`, as long as only calls in `ok` are reached. -/
abbrev Builds (σ : Session) (ok : MethodCall → Prop) {α : Type} (p : Build α) (Q : α → Prop) :
    Prop :=
  Total (body σ) ok (fun _ => True) p Q

/-- No restriction on the calls reached. -/
abbrev anyCall : MethodCall → Prop := fun _ => True

/-- The builder object keeps the contract, as long as only calls in `ok` are reached. -/
def RefinesOn (σ : Session) (ok : MethodCall → Prop) (E : Input → Prop) (folds : Bool)
    (b : ExprBuilder) : Prop :=
  ∀ c : Call, c.plain.WellSorted → c.traps = false →
    Builds σ ok (b.create c) (c.Meets E folds)

/-- The builder object keeps the contract. -/
abbrev Refines (σ : Session) (E : Input → Prop) (folds : Bool) (b : ExprBuilder) : Prop :=
  RefinesOn σ anyCall E folds b

/-- `p` comes to an end in whatever states it runs, in a value satisfying `Q` or, if
`stops`, by stopping, as long as only calls in `ok` are reached. -/
abbrev Completes (σ : Session) (stops : Prop) (ok : MethodCall → Prop) {α : Type} (p : Build α)
    (Q : α → Prop) : Prop :=
  Terminates (body σ) stops ok p Q

/-- The builder object comes to an end on every call of the contract, and keeps it. -/
def CompletesOn (σ : Session) (stops : Prop) (ok : MethodCall → Prop) (E : Input → Prop)
    (folds : Bool) (b : ExprBuilder) : Prop :=
  ∀ c : Call, c.plain.WellSorted → c.traps = false →
    Completes σ stops ok (b.create c) (c.Meets E folds)

section Rules

variable {σ : Session} {stops : Prop} {ok : MethodCall → Prop} {E : Input → Prop} {folds : Bool}

theorem builds_create {b : ExprBuilder} {c : Call} {Q : Expr → Prop}
    (h : ok ⟨b, c⟩ → Builds σ ok (body σ ⟨b, c⟩) Q) : Builds σ ok (b.create c) Q :=
  Total.call h

theorem builds_makeShared {c : Call} {Q : Expr → Prop} (hc : c.asserted = true)
    (h : ∀ ref, Q (c.node ref)) : Builds σ ok (.makeShared c) Q := by
  rw [Build.makeShared, if_pos hc]
  exact Total.get fun w _ => Total.set trivial (Total.ret (h w.nextRef))

theorem builds_ask {α : Type} {k : World → Build α} {Q : α → Prop}
    (h : ∀ w, Builds σ ok (k w) Q) : Builds σ ok (.ask k) Q :=
  Total.get fun w _ => Total.set trivial (h w)

theorem completes_create {b : ExprBuilder} {c : Call} {Q : Expr → Prop}
    (h : ok ⟨b, c⟩ → Completes σ stops ok (body σ ⟨b, c⟩) Q) :
    Completes σ stops ok (b.create c) Q :=
  Terminates.tail h

theorem completes_makeShared {c : Call} {Q : Expr → Prop} (hc : c.asserted = true)
    (h : ∀ ref, Q (c.node ref)) : Completes σ stops ok (.makeShared c) Q := by
  rw [Build.makeShared, if_pos hc]
  exact .get fun w => .set (.ret (h w.nextRef))

theorem completes_ask {α : Type} {k : World → Build α} {Q : α → Prop}
    (h : ∀ w, Completes σ stops ok (k w) Q) : Completes σ stops ok (.ask k) Q :=
  .get fun w => .set (h w)

theorem CompletesOn.completes {b : ExprBuilder} (h : CompletesOn σ stops ok E folds b) {c : Call}
    (hc : c.plain.WellSorted) (ht : c.traps = false) :
    Completes σ stops ok (b.create c) (c.Meets E folds) :=
  h c hc ht

theorem CompletesOn.constant {b : ExprBuilder} (h : CompletesOn σ stops ok E folds b) {n : Nat}
    (hn : 0 < n) (v : BitVec n) :
    Completes σ stops ok (b.create (.constant n v)) (fun e => ∃ ref, e = .constant ref n v) :=
  (h.completes (c := .constant n v) hn rfl).mono fun _ he => he.leaf rfl

theorem CompletesOn.bool {b : ExprBuilder} (h : CompletesOn σ stops ok E folds b) (v : Bool) :
    Completes σ stops ok (b.createBool v) (fun e => ∃ ref, e = .bool ref v) :=
  (h.completes (c := .bool v) trivial rfl).mono fun _ he => he.leaf rfl

/-- A builder that never stops refines. -/
theorem CompletesOn.refines {b : ExprBuilder} (h : CompletesOn σ False ok E folds b) :
    RefinesOn σ ok E folds b :=
  fun c hc ht => (h c hc ht).total

theorem RefinesOn.builds {b : ExprBuilder} (h : RefinesOn σ ok E folds b) {c : Call}
    (hc : c.plain.WellSorted) (ht : c.traps = false) :
    Builds σ ok (b.create c) (c.Meets E folds) :=
  h c hc ht

/-- A right builder may be called from anywhere. -/
theorem Refines.builds {b : ExprBuilder} (h : Refines σ E folds b) {c : Call}
    (hc : c.plain.WellSorted) (ht : c.traps = false) :
    Builds σ ok (b.create c) (c.Meets E folds) :=
  (h c hc ht).of_true

/-- A right builder is right under every restriction on calls. -/
theorem Refines.on {b : ExprBuilder} (h : Refines σ E folds b) (ok : MethodCall → Prop) :
    RefinesOn σ ok E folds b :=
  fun _ hc ht => h.builds hc ht

theorem RefinesOn.constant {b : ExprBuilder} (h : RefinesOn σ ok E folds b) {n : Nat} (hn : 0 < n)
    (v : BitVec n) :
    Builds σ ok (b.create (.constant n v)) (fun e => ∃ ref, e = .constant ref n v) :=
  (h.builds (c := .constant n v) hn rfl).mono fun _ he => he.leaf rfl

end Rules

end Qsym
