import Mathlib.Data.List.Basic

/-!
# Qsym.Frames.Unwinding

**Call stacks whose returns may skip frames.** A frame is known by the address its call
returns to; a return to `r` removes the innermost frame of `r` with all that was called from
it, and empties a stack that has no such frame.

A call, whatever happens in its frame, and the return from it leave the stack as it was
(`run_call_inner_ret`): the frames left open in between go with it.
-/

namespace Frames

variable {α : Type}

/-- What moves a stack. -/
inductive Move (α : Type) where
  | call (r : α)
  | ret (r : α)

/-- What a return to `r` leaves of a stack, the innermost frame first. -/
def unwind [DecidableEq α] (r : α) : List α → List α
  | [] => []
  | a :: stack => if a = r then stack else unwind r stack

def step [DecidableEq α] (stack : List α) : Move α → List α
  | .call r => r :: stack
  | .ret r => unwind r stack

def run [DecidableEq α] (stack : List α) (moves : List (Move α)) : List α :=
  moves.foldl step stack

/-- What may happen within the frame of `r`: calls that return, and calls that are left
open because a return to an outer frame skips them. Only a frame of `r` itself cannot be
left open there. -/
inductive Within : α → List (Move α) → Prop
  | done (r : α) : Within r []
  | call {r q : α} {inner rest : List (Move α)} :
      Within q inner → Within r rest → Within r (.call q :: inner ++ .ret q :: rest)
  | skipped {r q : α} {rest : List (Move α)} :
      q ≠ r → Within r rest → Within r (.call q :: rest)

section

variable [DecidableEq α] {r : α} {stack : List α} {moves : List (Move α)}

theorem unwind_append_cons {above : List α} (habove : r ∉ above) :
    unwind r (above ++ r :: stack) = stack := by
  induction above with
  | nil => simp [unwind]
  | cons a above ih =>
      have ha : a ≠ r := fun h => habove (by simp [h])
      rw [List.cons_append, unwind, if_neg ha]
      exact ih fun h => habove (List.mem_cons_of_mem a h)

theorem unwind_of_notMem (h : r ∉ stack) : unwind r stack = [] := by
  induction stack with
  | nil => rfl
  | cons a stack ih =>
      have ha : a ≠ r := fun heq => h (by simp [heq])
      rw [unwind, if_neg ha]
      exact ih fun hmem => h (List.mem_cons_of_mem a hmem)

/-- A return leaves nothing when only the bottom frame can be the one returned from. -/
theorem unwind_eq_nil_iff : unwind r stack = [] ↔ r ∉ stack.dropLast := by
  induction stack with
  | nil => simp [unwind]
  | cons a stack ih =>
      by_cases ha : a = r
      · cases stack <;> simp [unwind, ha]
      · cases stack with
        | nil => simp [unwind, ha]
        | cons b stack =>
            rw [unwind, if_neg ha, ih, List.dropLast_cons_cons, List.mem_cons, not_or]
            exact (and_iff_right fun h => ha h.symm).symm

theorem run_append (stack : List α) (moves rest : List (Move α)) :
    run stack (moves ++ rest) = run (run stack moves) rest :=
  List.foldl_append

/-- Within a frame, nothing below it is touched, and above it stand only frames of other
addresses. -/
theorem run_within (h : Within r moves) :
    ∀ stack above : List α, r ∉ above →
      ∃ above', r ∉ above' ∧ run (above ++ r :: stack) moves = above' ++ r :: stack := by
  induction h with
  | done r => exact fun stack above habove => ⟨above, habove, rfl⟩
  | @call r q inner rest _ _ ihinner ihrest =>
      intro stack above habove
      obtain ⟨left, hleft, hrun⟩ := ihinner (above ++ r :: stack) [] (by simp)
      have hback : run (above ++ r :: stack) (.call q :: inner ++ .ret q :: rest) =
          run (above ++ r :: stack) rest :=
        calc run (above ++ r :: stack) (.call q :: inner ++ .ret q :: rest)
            = run (unwind q (run (q :: (above ++ r :: stack)) inner)) rest := run_append _ _ _
          _ = run (above ++ r :: stack) rest := by
              rw [show run (q :: (above ++ r :: stack)) inner = _ from hrun,
                unwind_append_cons hleft]
      rw [hback]
      exact ihrest stack above habove
  | @skipped r q rest hq _ ih =>
      intro stack above habove
      exact ih stack (q :: above) fun h => (List.mem_cons.mp h).elim (fun heq => hq heq.symm) habove

/-- A call and the return from it restore the stack, whatever the frame left open. -/
theorem run_call_inner_ret (h : Within r moves) (stack : List α) :
    run stack (.call r :: moves ++ [.ret r]) = stack := by
  obtain ⟨left, hleft, hrun⟩ := run_within h stack [] (by simp)
  calc run stack (.call r :: moves ++ [.ret r])
      = unwind r (run (r :: stack) moves) := run_append _ _ _
    _ = stack := by rw [show run (r :: stack) moves = _ from hrun, unwind_append_cons hleft]

end

end Frames
