import Mathlib.Data.Finset.Lattice.Lemmas
import Mathlib.Logic.Relation

/-!
# Qsym.Components.Linked

**Connected components** of a list of finite sets, each of which ties its elements
together. `Linked` is the relation of being in one component: a chain of steps,
every step inside one of the sets.

A labelling that is constant on every set is constant on every component
(`Linked.eq_of_constant`), and a larger list links more (`Linked.mono`); between
them they pin a component down.
-/

namespace Components

variable {ι κ T : Type*}

/-- `i` and `j` are joined by steps inside the sets of `edges`. -/
def Linked (edges : List (Finset ι)) : ι → ι → Prop :=
  Relation.ReflTransGen fun i j => ∃ e ∈ edges, i ∈ e ∧ j ∈ e

namespace Linked

variable {edges edges' : List (Finset ι)} {i j k : ι}

theorem refl (edges : List (Finset ι)) (i : ι) : Linked edges i i :=
  Relation.ReflTransGen.refl

theorem of_mem {e : Finset ι} (he : e ∈ edges) (hi : i ∈ e) (hj : j ∈ e) : Linked edges i j :=
  Relation.ReflTransGen.single ⟨e, he, hi, hj⟩

theorem trans (h : Linked edges i j) (h' : Linked edges j k) : Linked edges i k :=
  Relation.ReflTransGen.trans h h'

theorem symm (h : Linked edges i j) : Linked edges j i := by
  induction h with
  | refl => exact refl edges i
  | tail _ hstep ih =>
      obtain ⟨e, he, hi, hj⟩ := hstep
      exact (of_mem he hj hi).trans ih

/-- More sets link more. -/
theorem mono (h : ∀ e ∈ edges, e ∈ edges') (hij : Linked edges i j) : Linked edges' i j := by
  induction hij with
  | refl => exact refl edges' i
  | tail _ hstep ih =>
      obtain ⟨e, he, hi, hj⟩ := hstep
      exact ih.trans (of_mem (h e he) hi hj)

/-- A labelling that does not change inside a set does not change along a chain. -/
theorem eq_of_constant {f : ι → κ} (h : ∀ e ∈ edges, ∀ a ∈ e, ∀ b ∈ e, f a = f b)
    (hij : Linked edges i j) : f i = f j := by
  induction hij with
  | refl => rfl
  | tail _ hstep ih =>
      obtain ⟨e, he, hi, hj⟩ := hstep
      exact ih.trans (h e he _ hi _ hj)

end Linked

/-! ### What a set of roots reaches -/

/-- `i` is joined to one of `roots`. -/
def Reached (edges : List (Finset ι)) (roots : Finset ι) (i : ι) : Prop :=
  ∃ j ∈ roots, Linked edges j i

namespace Reached

variable {edges : List (Finset ι)} {roots e : Finset ι} {i j : ι}

theorem of_root (h : i ∈ roots) : Reached edges roots i :=
  ⟨i, h, .refl edges i⟩

theorem of_mem (h : Reached edges roots i) (he : e ∈ edges) (hi : i ∈ e) (hj : j ∈ e) :
    Reached edges roots j := by
  obtain ⟨k, hk, hki⟩ := h
  exact ⟨k, hk, hki.trans (.of_mem he hi hj)⟩

/-- A set is reached as a whole or not at all. -/
theorem all_or_none (roots : Finset ι) (he : e ∈ edges) :
    (∀ i ∈ e, Reached edges roots i) ∨ ∀ i ∈ e, ¬ Reached edges roots i := by
  by_cases h : ∃ i ∈ e, Reached edges roots i
  · obtain ⟨i, hi, hreached⟩ := h
    exact .inl fun j hj => hreached.of_mem he hi hj
  · exact .inr fun i hi hreached => h ⟨i, hi, hreached⟩

end Reached

/-! ### The members of two components -/

/-- Two kinds of members that exclude each other, taken out one after the other. -/
theorem filter_or_perm {p q : T → Bool} {l : List T} (h : ∀ x ∈ l, p x = true → q x = false) :
    (l.filter p ++ l.filter q).Perm (l.filter fun x => p x || q x) := by
  induction l with
  | nil => exact .refl _
  | cons x l ih =>
      have ih := ih fun y hy => h y (List.mem_cons_of_mem _ hy)
      cases hp : p x with
      | true =>
          have hq : q x = false := h x List.mem_cons_self hp
          simpa [List.filter_cons, hp, hq] using ih
      | false =>
          cases hq : q x with
          | true =>
              simp only [List.filter_cons, hp, hq, Bool.false_or, if_true, if_false,
                Bool.false_eq_true]
              exact List.perm_middle.trans (ih.cons x)
          | false => simpa [List.filter_cons, hp, hq] using ih

end Components
