import Mathlib.Data.ZMod.Defs
import Mathlib.Logic.Function.Basic

/-!
# Qsym.Ring.Recent

A **ring of slots** that stands for an unbounded history: every entry is written to the
next slot around, so the slot `j` places back from the last one written holds the entry
`j` places back in the history, as long as `j` is less than the number of slots.
-/

namespace Ring

/-- A ring of `m` slots. The entry written last is at `start`. -/
structure Recent (m : Nat) (α : Type) where
  start : Fin m
  slots : Fin m → Option α

namespace Recent

variable {m : Nat} [NeZero m] {α : Type}

/-- No entry. -/
def empty : Recent m α :=
  { start := 0, slots := fun _ => none }

/-- Write an entry to the next slot. -/
def push (r : Recent m α) (a : α) : Recent m α :=
  { start := r.start + 1, slots := Function.update r.slots (r.start + 1) (some a) }

/-- The ring after a history, whose most recent entry stands first. -/
def ofHistory : List α → Recent m α
  | [] => empty
  | a :: h => (ofHistory h).push a

theorem start_ofHistory (h : List α) :
    (ofHistory h : Recent m α).start = Fin.ofNat m h.length := by
  induction h with
  | nil => rfl
  | cons a h ih =>
      show (ofHistory h).start + 1 = _
      rw [ih]
      ext
      simp [Fin.val_add, List.length_cons]

/-- Going back over the ring is going back in the history. -/
theorem slots_ofHistory (h : List α) {j : Nat} (hj : j < m) :
    (ofHistory h : Recent m α).slots ((ofHistory h).start - Fin.ofNat m j) = h[j]? := by
  induction h generalizing j with
  | nil => rfl
  | cons a h ih =>
      show Function.update (ofHistory h).slots ((ofHistory h).start + 1) (some a)
        ((ofHistory h).start + 1 - Fin.ofNat m j) = _
      cases j with
      | zero => simp
      | succ j =>
          have hj' : j < m := Nat.lt_of_succ_lt hj
          have hval : (Fin.ofNat m (j + 1) : Fin m) = Fin.ofNat m j + 1 := by
            ext
            simp [Fin.val_add]
          have hne : (Fin.ofNat m (j + 1) : Fin m) ≠ 0 := by
            intro h0
            have := congrArg Fin.val h0
            simp [Nat.mod_eq_of_lt hj] at this
          rw [Function.update_of_ne (by simpa using hne), hval, add_sub_add_right_eq_sub, ih hj',
            List.getElem?_cons_succ]

end Recent

end Ring
