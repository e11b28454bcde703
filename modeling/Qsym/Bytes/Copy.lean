import Mathlib.Data.List.Pairwise
import Mathlib.Logic.Function.Basic

/-!
# Qsym.Bytes.Copy

**Copying cell by cell.** A loop that copies reads each cell when it comes to it, and so may
read what it has written itself. If no step writes what a later one reads or writes
(`Ordered`), it copies what was there before (`copy_of_mem`). Nothing here depends on what
the cells are or hold.
-/

namespace Bytes

variable {K V : Type} [DecidableEq K]

/-- The steps of a loop in their order: to the first cell comes what the second one holds. -/
def copy : List (K × K) → (K → V) → K → V
  | [], v => v
  | p :: ps, v => copy ps (Function.update v p.1 (v p.2))

/-- No step writes what a later one reads or writes. -/
def Ordered (ps : List (K × K)) : Prop :=
  ps.Pairwise fun p q => p.1 ≠ q.1 ∧ p.1 ≠ q.2

variable {ps : List (K × K)} {k : K}

@[simp] theorem copy_nil (v : K → V) : copy [] v = v := rfl

@[simp] theorem copy_cons (p : K × K) (v : K → V) :
    copy (p :: ps) v = copy ps (Function.update v p.1 (v p.2)) := rfl

omit [DecidableEq K] in
theorem ordered_cons {p : K × K} :
    Ordered (p :: ps) ↔ (∀ q ∈ ps, p.1 ≠ q.1 ∧ p.1 ≠ q.2) ∧ Ordered ps :=
  List.pairwise_cons

/-- What no step writes stays. -/
theorem copy_of_ne (v : K → V) (h : ∀ p ∈ ps, p.1 ≠ k) : copy ps v k = v k := by
  induction ps generalizing v with
  | nil => rfl
  | cons p ps ih =>
      obtain ⟨hp, hps⟩ := List.forall_mem_cons.1 h
      rw [copy_cons, ih _ hps, Function.update_of_ne hp.symm]

/-- Ordered steps copy what was there before. -/
theorem copy_of_mem (v : K → V) (hps : Ordered ps) {p : K × K} (hp : p ∈ ps) :
    copy ps v p.1 = v p.2 := by
  induction ps generalizing v with
  | nil => cases hp
  | cons q ps ih =>
      obtain ⟨hq, hps⟩ := ordered_cons.1 hps
      rcases List.mem_cons.1 hp with rfl | hp
      · rw [copy_cons, copy_of_ne _ fun q' hq' => ((hq q' hq').1).symm, Function.update_self]
      · rw [copy_cons, ih _ hps hp, Function.update_of_ne (hq p hp).2.symm]

/-! ### Loops over the first numbers -/

section Range

variable {p q : Nat → K} {n i : Nat}

/-- If no cell is written before it is read, the loop copies what was there before. -/
theorem copy_range (v : K → V) (hp : ∀ i < n, ∀ j < n, p i = p j → i = j)
    (hlater : ∀ i j, i < j → j < n → p i ≠ q j) (hi : i < n) :
    copy ((List.range n).map fun i => (p i, q i)) v (p i) = v (q i) := by
  have hordered : Ordered ((List.range n).map fun i => (p i, q i)) := by
    rw [Ordered, List.pairwise_map]
    refine List.pairwise_lt_range.imp_of_mem fun {i j} hi hj hij => ⟨fun h => ?_, ?_⟩
    · exact Nat.ne_of_lt hij (hp i (List.mem_range.1 hi) j (List.mem_range.1 hj) h)
    · exact hlater i j hij (List.mem_range.1 hj)
  exact copy_of_mem v hordered (List.mem_map_of_mem (List.mem_range.2 hi))

theorem copy_range_of_ne (v : K → V) {k : K} (h : ∀ i < n, p i ≠ k) :
    copy ((List.range n).map fun i => (p i, q i)) v k = v k := by
  refine copy_of_ne v fun x hx => ?_
  obtain ⟨i, hi, rfl⟩ := List.mem_map.1 hx
  exact h i (List.mem_range.1 hi)

end Range

end Bytes
