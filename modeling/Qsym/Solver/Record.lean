import Qsym.Expr.Deps
import Qsym.Solver.Forest

/-!
# Qsym.Solver.Record

`Solver::addConstraint(ExprRef)`, the gate in front of the forest, and what the
forest holds after **any sequence of calls**. The gate lets no expression without
input bytes through, so the null tree of `addNode` is out of reach.
-/

namespace Qsym

open Components

/-- How a call can end the process. -/
inductive Failure
  /-- A failed `assert` or `QSYM_ASSERT`. -/
  | assertion
  | nullDereference
  deriving DecidableEq, Repr

namespace DependencyForest

variable (F : DependencyForest Expr)

/-- `Solver::addConstraint(ExprRef)` -/
def addConstraint (e : Expr) : Except Failure (DependencyForest Expr) :=
  match e with
  -- If e is true, then just skip
  | .bool _ value => if value then .ok F else .error .assertion
  | e =>
      if e.isConcrete then .ok F
      else match F.addNode Expr.getDeps e with
        | some F => .ok F
        | none => .error .nullDereference

end DependencyForest

namespace DependencyForest

variable {F : DependencyForest Expr} {nodes : List Expr} {e : Expr}

theorem addConstraint_symbolic (h : e.isConcrete = false) : F.addConstraint e =
    match F.addNode Expr.getDeps e with
    | some F => .ok F
    | none => .error .nullDereference := by
  cases e with
  | bool => cases h
  | _ => simp only [addConstraint, h, Bool.false_eq_true, if_false]

/-- What has no input bytes is passed over; only a literal false is refused. -/
theorem addConstraint_concrete (h : e.isConcrete = true) :
    F.addConstraint e = .ok F ∨
      F.addConstraint e = .error .assertion ∧ ∃ ref, e = .bool ref false := by
  cases e with
  | bool ref value =>
      cases value with
      | true => exact .inl rfl
      | false => exact .inr ⟨rfl, ref, rfl⟩
  | _ => simp only [addConstraint, h, if_true, true_or]

theorem Sorted.addConstraint (h : Sorted Expr.getDeps F nodes) (he : e.isConcrete = false) :
    ∃ F', F.addConstraint e = .ok F' ∧ Sorted Expr.getDeps F' (nodes ++ [e]) := by
  have hne : e.getDeps.Nonempty := by
    rw [Finset.nonempty_iff_ne_empty, ne_eq, ← Expr.isConcrete_iff, he]
    exact Bool.false_ne_true
  obtain ⟨F', hadd, hF'⟩ := h.addNode hne
  exact ⟨F', by rw [addConstraint_symbolic he, hadd], hF'⟩

end DependencyForest

/-- The calls that reach `dep_forest_`: `addConstraint` records, `syncConstraints`
looks bytes up. -/
inductive Access
  | add (e : Expr)
  | find (index : Nat)
  deriving DecidableEq, Repr

namespace Access

open DependencyForest

def apply (F : DependencyForest Expr) : Access → Except Failure (DependencyForest Expr)
  | add e => F.addConstraint e
  | find index => .ok (F.find index).2

/-- A sequence of calls, from the empty forest of a new solver. -/
def run (accesses : List Access) : Except Failure (DependencyForest Expr) :=
  accesses.foldlM apply .empty

/-- The nodes a sequence of calls adds, in order: the expressions with input bytes. -/
def added (accesses : List Access) : List Expr :=
  accesses.filterMap fun
    | add e => if e.isConcrete then none else some e
    | find _ => none

/-- One call keeps the forest sorted; only recording a literal false is refused. -/
theorem apply_sorted {F : DependencyForest Expr} {nodes : List Expr} (a : Access)
    (h : Sorted Expr.getDeps F nodes) :
    (a.apply F = .error .assertion ∧ ∃ ref, a = add (.bool ref false)) ∨
      ∃ F', a.apply F = .ok F' ∧ Sorted Expr.getDeps F' (nodes ++ added [a]) := by
  cases a with
  | find index => exact .inr ⟨_, rfl, by simpa [added] using h.find index⟩
  | add e =>
      cases he : e.isConcrete with
      | false =>
          obtain ⟨F', hadd, hF'⟩ := h.addConstraint he
          exact .inr ⟨F', hadd, by simpa [added, he] using hF'⟩
      | true =>
          obtain hok | ⟨herr, ref, rfl⟩ := addConstraint_concrete (F := F) he
          · exact .inr ⟨F, hok, by simpa [added, he] using h⟩
          · exact .inl ⟨herr, ref, rfl⟩

theorem foldlM_sorted {F : DependencyForest Expr} {nodes : List Expr} (accesses : List Access)
    (h : Sorted Expr.getDeps F nodes) :
    (accesses.foldlM apply F = .error .assertion ∧ ∃ ref, add (.bool ref false) ∈ accesses) ∨
      ∃ F', accesses.foldlM apply F = .ok F' ∧
        Sorted Expr.getDeps F' (nodes ++ added accesses) := by
  induction accesses generalizing F nodes with
  | nil => exact .inr ⟨F, rfl, by simpa [added] using h⟩
  | cons a accesses ih =>
      rw [List.foldlM_cons]
      obtain ⟨ha, ref, rfl⟩ | ⟨F₁, ha, h₁⟩ := apply_sorted a h
      · rw [ha]
        exact .inl ⟨rfl, ref, List.mem_cons_self⟩
      · rw [ha]
        have hsplit : added (a :: accesses) = added [a] ++ added accesses := by
          simp only [added, ← List.filterMap_append, List.cons_append, List.nil_append]
        rw [hsplit, ← List.append_assoc]
        exact (ih h₁).imp_left fun ⟨he, ref, hmem⟩ => ⟨he, ref, List.mem_cons_of_mem a hmem⟩

/-- A run from the empty forest. -/
theorem run_sorted (accesses : List Access) :
    (run accesses = .error .assertion ∧ ∃ ref, add (.bool ref false) ∈ accesses) ∨
      ∃ F, run accesses = .ok F ∧ Sorted Expr.getDeps F (added accesses) :=
  foldlM_sorted accesses sorted_empty

/-- **The forest invariant.** No sequence of calls reaches `addNode` without an input
byte. Afterwards two bytes of added nodes lead to one tree exactly when a chain of
added nodes joins them; a tree has exactly the bytes of its component, and each
added node that mentions one of them as often as it was added. -/
theorem run_components (accesses : List Access) :
    run accesses ≠ .error .nullDereference ∧
      ∀ F, run accesses = .ok F →
        (∀ i j, (∃ n ∈ added accesses, i ∈ n.getDeps) → (∃ n ∈ added accesses, j ∈ n.getDeps) →
          ((F.find i).1 = ((F.find i).2.find j).1 ↔
            Linked ((added accesses).map Expr.getDeps) i j)) ∧
        ∀ i, let tree := (F.find i).2.tree (F.find i).1
          (∀ j, j ∈ tree.deps ↔ (∃ n ∈ added accesses, j ∈ n.getDeps) ∧
            Linked ((added accesses).map Expr.getDeps) i j) ∧
          tree.nodes.Perm
            ((added accesses).filter fun n => decide (¬ Disjoint n.getDeps tree.deps)) := by
  obtain ⟨he, -⟩ | ⟨F₀, hr, h⟩ := run_sorted accesses
  · rw [he]
    exact ⟨nofun, nofun⟩
  rw [hr]
  refine ⟨nofun, fun F hF => ?_⟩
  obtain rfl := Except.ok.inj hF
  have hf : ∀ i, Sorted Expr.getDeps (F₀.find i).2 (added accesses) := fun i => h.find i
  refine ⟨fun i j hi hj => ?_, fun i => ?_⟩
  · obtain ⟨n, hn, hjn⟩ := id hj
    obtain ⟨t, ht, -⟩ := (hf i).placed hn hjn
    rw [← (hf i).owner_eq_iff hi hj, owner_find_self, ht, find_fst ht, Option.some_inj]
  · have ht := owner_find_self (F := F₀) (i := i)
    exact ⟨fun j => (hf i).mem_deps_iff ht, (hf i).held ht⟩

/-- Constraints on the bytes 0 1, 2 3 and 1 2, the last one recorded twice. -/
def overlapping : List Access :=
  let test i j := Access.add (.compare 0 .equal (.read i) (.read j))
  [test 0 1, test 2 3, test 1 2, .find 7, test 1 2]

theorem overlapping_components :
    ∃ F, run overlapping = .ok F ∧ (F.find 0).1 = ((F.find 0).2.find 3).1 := by
  obtain ⟨-, ref, hmem⟩ | ⟨F, hF, -⟩ := run_sorted overlapping
  · simp [overlapping] at hmem
  have hlinked : Linked ((added overlapping).map Expr.getDeps) 0 3 :=
    have step {i j : Nat} {e : Finset Nat} (he : e ∈ (added overlapping).map Expr.getDeps)
        (hi : i ∈ e) (hj : j ∈ e) := Linked.of_mem he hi hj
    ((step (i := 0) (j := 1) (e := {0, 1}) (by decide) (by decide) (by decide)).trans
      (step (j := 2) (e := {1, 2}) (by decide) (by decide) (by decide))).trans
      (step (e := {2, 3}) (by decide) (by decide) (by decide))
  have hcomponents := ((run_components overlapping).2 F hF).1 0 3 (by decide) (by decide)
  exact ⟨F, hF, hcomponents.2 hlinked⟩

end Access

end Qsym
