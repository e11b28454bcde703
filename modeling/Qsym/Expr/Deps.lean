import Mathlib.Data.Finset.Lattice.Lemmas
import Qsym.Expr.Value

/-!
# Qsym.Expr.Deps

The input bytes below an expression. The value of an expression depends on nothing
else (`value_congr`), and an expression is concrete when there are none.
-/

namespace Qsym.Expr

/-- `Expr::getDeps` -/
def getDeps : Expr → Finset Nat
  | bool _ _ | constant _ _ _ => ∅
  | read i => {i}
  | concat _ l r => l.getDeps ∪ r.getDeps
  | extract _ e _ _ => e.getDeps
  | ext _ _ e _ => e.getDeps
  | unary _ _ e => e.getDeps
  | binary _ _ l r => l.getDeps ∪ r.getDeps
  | compare _ _ l r => l.getDeps ∪ r.getDeps
  | ite _ c t f => c.getDeps ∪ t.getDeps ∪ f.getDeps

/-- `isConcrete_` as the constructors leave it: a read is not concrete, and
`addChild` passes that on. -/
def isConcrete : Expr → Bool
  | bool _ _ | constant _ _ _ => true
  | read _ => false
  | concat _ l r => l.isConcrete && r.isConcrete
  | extract _ e _ _ => e.isConcrete
  | ext _ _ e _ => e.isConcrete
  | unary _ _ e => e.isConcrete
  | binary _ _ l r => l.isConcrete && r.isConcrete
  | compare _ _ l r => l.isConcrete && r.isConcrete
  | ite _ c t f => c.isConcrete && t.isConcrete && f.isConcrete

theorem isConcrete_iff {e : Expr} : e.isConcrete = true ↔ e.getDeps = ∅ := by
  induction e with
  | bool | constant => exact iff_of_true rfl rfl
  | read i => exact iff_of_false nofun (Finset.singleton_ne_empty i)
  | extract _ _ _ _ ih | ext _ _ _ _ ih | unary _ _ _ ih => exact ih
  | concat _ _ _ ihl ihr | binary _ _ _ _ ihl ihr | compare _ _ _ _ ihl ihr =>
      rw [isConcrete, getDeps, Bool.and_eq_true, ihl, ihr, Finset.union_eq_empty]
  | ite _ _ _ _ ihc iht ihf =>
      rw [isConcrete, getDeps, Bool.and_eq_true, Bool.and_eq_true, ihc, iht, ihf,
        Finset.union_eq_empty, Finset.union_eq_empty]

/-- Inputs that agree on the bytes below an expression give it one value. -/
theorem value_congr {e : Expr} {ρ ρ' : Input} (h : ∀ i ∈ e.getDeps, ρ i = ρ' i) :
    e.value ρ = e.value ρ' := by
  induction e with
  | bool | constant => rfl
  | read i => rw [value, value, h i (Finset.mem_singleton_self i)]
  | extract _ _ _ _ ih | ext _ _ _ _ ih | unary _ _ _ ih => simp only [value, ih h]
  | concat _ _ _ ihl ihr | binary _ _ _ _ ihl ihr | compare _ _ _ _ ihl ihr =>
      have hl := ihl fun i hi => h i (Finset.mem_union_left _ hi)
      have hr := ihr fun i hi => h i (Finset.mem_union_right _ hi)
      simp only [value, hl, hr]
  | ite _ c t f ihc iht ihf =>
      have hc := ihc fun i hi => h i (Finset.mem_union_left _ (Finset.mem_union_left _ hi))
      have ht := iht fun i hi => h i (Finset.mem_union_left _ (Finset.mem_union_right _ hi))
      have hf := ihf fun i hi => h i (Finset.mem_union_right _ hi)
      simp only [value, hc, ht, hf]

end Qsym.Expr
