import Qsym.Expr.Agrees
import Qsym.Expr.Deps

/-!
# Qsym.Expr.Over

What an expression is **made of**: the input bytes it reads, and whether it divides.
Rewriting takes expressions apart and puts the parts together again, so a bound on
these two is kept by every builder.
-/

namespace Qsym

namespace Expr

/-- Every read is at an index in `reads`, and a division occurs only if `divides`. -/
def Over (reads : Nat → Prop) (divides : Prop) : Expr → Prop
  | bool _ _ | constant _ _ _ => True
  | read i => reads i
  | concat _ l r => l.Over reads divides ∧ r.Over reads divides
  | extract _ e _ _ => e.Over reads divides
  | ext _ _ e _ => e.Over reads divides
  | unary _ _ e => e.Over reads divides
  | binary _ k l r =>
      (k.isDivision = true → divides) ∧ l.Over reads divides ∧ r.Over reads divides
  | compare _ _ l r => l.Over reads divides ∧ r.Over reads divides
  | ite _ c t f => c.Over reads divides ∧ t.Over reads divides ∧ f.Over reads divides

variable {reads : Nat → Prop} {divides : Prop} {e e' : Expr}

theorem Over.mono {reads' : Nat → Prop} {divides' : Prop} (h : e.Over reads divides)
    (hr : ∀ i, reads i → reads' i) (hd : divides → divides') : e.Over reads' divides' := by
  induction e with
  | bool | constant => trivial
  | read i => exact hr i h
  | extract _ _ _ _ ih | ext _ _ _ _ ih | unary _ _ _ ih => exact ih h
  | concat _ _ _ ihl ihr | compare _ _ _ _ ihl ihr => exact ⟨ihl h.1, ihr h.2⟩
  | binary _ _ _ _ ihl ihr => exact ⟨fun hk => hd (h.1 hk), ihl h.2.1, ihr h.2.2⟩
  | ite _ _ _ _ ihc iht ihf => exact ⟨ihc h.1, iht h.2.1, ihf h.2.2⟩

/-- The bytes read are the dependencies. -/
theorem over_iff_getDeps : e.Over reads True ↔ ∀ i ∈ e.getDeps, reads i := by
  induction e with
  | bool | constant => exact iff_of_true trivial fun i hi => absurd hi (Finset.notMem_empty i)
  | read j => simp [Over, getDeps]
  | extract _ _ _ _ ih | ext _ _ _ _ ih | unary _ _ _ ih => exact ih
  | concat _ _ _ ihl ihr | compare _ _ _ _ ihl ihr =>
      simp only [Over, getDeps, ihl, ihr, Finset.mem_union, or_imp, forall_and]
  | binary _ _ _ _ ihl ihr =>
      simp only [Over, getDeps, ihl, ihr, Finset.mem_union, or_imp, forall_and, imp_true_iff,
        true_and]
  | ite _ _ _ _ ihc iht ihf =>
      simp only [Over, getDeps, ihc, iht, ihf, Finset.mem_union, or_imp, forall_and, and_assoc]

/-- Without a division there is no divisor. -/
theorem Over.divisorsNonzero (h : e.Over reads False) (ρ : Input) : e.DivisorsNonzero ρ := by
  induction e with
  | bool | constant | read => trivial
  | extract _ _ _ _ ih | ext _ _ _ _ ih | unary _ _ _ ih => exact ih h
  | concat _ _ _ ihl ihr | compare _ _ _ _ ihl ihr => exact ⟨ihl h.1, ihr h.2⟩
  | binary _ _ _ _ ihl ihr => exact ⟨ihl h.2.1, ihr h.2.2, fun hk => (h.1 hk).elim⟩
  | ite _ _ _ _ ihc iht ihf => exact ⟨ihc h.1, iht h.2.1, ihf h.2.2⟩

/-- Shallowly equal nodes have the same parts. -/
theorem Over.of_equalShallowly (h : e'.Over reads divides) (he : e.equalShallowly e' = true) :
    e.Over reads divides := by
  cases e <;> cases e' <;> simp_all [equalShallowly, Over]

end Expr

end Qsym
