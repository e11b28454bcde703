import Mathlib.Data.Finset.Card
import Mathlib.Data.Finset.Dedup
import Mathlib.Order.Bounds.Basic

/-!
# Qsym.Search.Blocking

Searching a set **by blocking what was found**: every round takes an element of the set
whose value stands in a relation to the values of all rounds before, and the search is over
when there is no such element. It names nothing of the program.

With an irreflexive relation no value comes twice, so the search ends (`length_le`). What it
has found by then depends on the relation: every value of the set when it is `≠`
(`mem_iff`), the least one when it is `<` and the greatest one when it is `>`.
-/

namespace Search

variable {A V : Type} {S : Set A} {f : A → V} {R : V → V → Prop} {found : List V} {v : V}

/-- The values of the rounds so far, the latest one first. -/
inductive Rounds (S : Set A) (f : A → V) (R : V → V → Prop) : List V → Prop
  | nil : Rounds S f R []
  | cons {a : A} {found : List V} : a ∈ S → (∀ v ∈ found, R (f a) v) → Rounds S f R found →
      Rounds S f R (f a :: found)

/-- No element is left for another round. -/
def Exhausted (S : Set A) (f : A → V) (R : V → V → Prop) (found : List V) : Prop :=
  ∀ a ∈ S, ∃ v ∈ found, ¬ R (f a) v

theorem exists_mem_of_not_exhausted (h : ¬ Exhausted S f R found) :
    ∃ a ∈ S, ∀ v ∈ found, R (f a) v := by
  simpa [Exhausted] using h

namespace Rounds

theorem pairwise (h : Rounds S f R found) : found.Pairwise R := by
  induction h with
  | nil => exact .nil
  | cons _ hR _ ih => exact .cons hR ih

theorem mem_image (h : Rounds S f R found) (hv : v ∈ found) : v ∈ f '' S := by
  induction h with
  | nil => cases hv
  | cons ha _ _ ih =>
      rcases List.mem_cons.1 hv with rfl | hv
      · exact ⟨_, ha, rfl⟩
      · exact ih hv

theorem nodup (h : Rounds S f R found) (hR : ∀ v, ¬ R v v) : found.Nodup := by
  refine h.pairwise.imp ?_
  rintro v w hvw rfl
  exact hR v hvw

/-- The search ends: there are no more rounds than values. -/
theorem length_le (h : Rounds S f R found) (hR : ∀ v, ¬ R v v) {T : Finset V}
    (hT : ∀ a ∈ S, f a ∈ T) : found.length ≤ T.card := by
  classical
  rw [← List.toFinset_card_of_nodup (h.nodup hR)]
  refine Finset.card_le_card fun v hv => ?_
  obtain ⟨a, ha, rfl⟩ := h.mem_image (List.mem_toFinset.1 hv)
  exact hT a ha

/-- Blocking one value at a time finds every value. -/
theorem mem_iff (h : Rounds S f (· ≠ ·) found) (hex : Exhausted S f (· ≠ ·) found) :
    v ∈ found ↔ v ∈ f '' S := by
  constructor
  · exact h.mem_image
  · rintro ⟨a, ha, rfl⟩
    obtain ⟨w, hw, heq⟩ := hex a ha
    exact (not_not.1 heq) ▸ hw

section

variable [LinearOrder V]

/-- Going down ends at the least value. -/
theorem isLeast (h : Rounds S f (· < ·) (v :: found)) (hex : Exhausted S f (· < ·) (v :: found)) :
    IsLeast (f '' S) v := by
  refine ⟨h.mem_image List.mem_cons_self, ?_⟩
  rintro _ ⟨a, ha, rfl⟩
  obtain ⟨w, hw, hle⟩ := hex a ha
  rcases List.mem_cons.1 hw with rfl | hw
  · exact not_lt.1 hle
  · exact ((List.pairwise_cons.1 h.pairwise).1 w hw).le.trans (not_lt.1 hle)

/-- Going up ends at the greatest value. -/
theorem isGreatest (h : Rounds S f (· > ·) (v :: found))
    (hex : Exhausted S f (· > ·) (v :: found)) : IsGreatest (f '' S) v := by
  refine ⟨h.mem_image List.mem_cons_self, ?_⟩
  rintro _ ⟨a, ha, rfl⟩
  obtain ⟨w, hw, hle⟩ := hex a ha
  rcases List.mem_cons.1 hw with rfl | hw
  · exact not_lt.1 hle
  · exact (not_lt.1 hle).trans ((List.pairwise_cons.1 h.pairwise).1 w hw).le

end

end Rounds

end Search
