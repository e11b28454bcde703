import Mathlib.Data.List.Basic

/-!
# Qsym.Schedule.History

Histories of **guarded updates**: a state changes by one update after another, and a guard
says which updates a state allows.

A history of allowed updates keeps what each of them keeps (`Admissible.invariant`), and
every update in it met its guard in the state that the updates before it lead to
(`Admissible.guard`). A set that some updates add to and one update empties holds what has
been added since (`since_concat`).
-/

namespace History

variable {σ υ : Type*} {apply : σ → υ → σ} {allows : σ → υ → Prop}

/-- The state after a list of updates. -/
def replay (apply : σ → υ → σ) (s : σ) (us : List υ) : σ :=
  us.foldl apply s

@[simp] theorem replay_nil (s : σ) : replay apply s [] = s := rfl

@[simp] theorem replay_cons (s : σ) (u : υ) (us : List υ) :
    replay apply s (u :: us) = replay apply (apply s u) us := rfl

@[simp] theorem replay_append (s : σ) (us vs : List υ) :
    replay apply s (us ++ vs) = replay apply (replay apply s us) vs :=
  List.foldl_append

/-- Every update is allowed by the state it meets. -/
def Admissible (apply : σ → υ → σ) (allows : σ → υ → Prop) : σ → List υ → Prop
  | _, [] => True
  | s, u :: us => allows s u ∧ Admissible apply allows (apply s u) us

theorem admissible_append {s : σ} {us vs : List υ} :
    Admissible apply allows s (us ++ vs) ↔
      Admissible apply allows s us ∧ Admissible apply allows (replay apply s us) vs := by
  induction us generalizing s with
  | nil => simp [Admissible]
  | cons u us ih => simp [Admissible, ih, and_assoc]

theorem Admissible.take {s : σ} {us : List υ} (h : Admissible apply allows s us) (n : Nat) :
    Admissible apply allows s (us.take n) := by
  rw [← List.take_append_drop n us] at h
  exact (admissible_append.mp h).1

theorem Admissible.guard {s : σ} {us vs : List υ} {u : υ}
    (h : Admissible apply allows s (us ++ u :: vs)) : allows (replay apply s us) u :=
  (admissible_append.mp h).2.1

/-- What every allowed update keeps holds after the history. -/
theorem Admissible.invariant {I : σ → Prop}
    (step : ∀ s u, I s → allows s u → I (apply s u)) {s : σ} {us : List υ}
    (h : Admissible apply allows s us) (hs : I s) : I (replay apply s us) := by
  induction us generalizing s with
  | nil => exact hs
  | cons u us ih => exact ih h.2 (step s u hs h.1)

/-- `u` has occurred, and `reset` not after it. -/
def Since (reset u : υ) (us : List υ) : Prop :=
  ∃ before after, us = before ++ u :: after ∧ reset ∉ after

theorem not_since_nil (reset u : υ) : ¬ Since reset u [] := by
  rintro ⟨before, after, h, -⟩
  simp at h

theorem since_concat {reset u v : υ} {us : List υ} :
    Since reset u (us ++ [v]) ↔ v = u ∨ v ≠ reset ∧ Since reset u us := by
  constructor
  · rintro ⟨before, after, heq, hafter⟩
    rcases List.eq_nil_or_concat after with rfl | ⟨after, w, rfl⟩
    · exact .inl (List.singleton_inj.mp (List.append_inj_right' heq rfl))
    · have heq : us ++ [v] = (before ++ u :: after) ++ [w] := by simpa using heq
      obtain ⟨rfl, hvw⟩ := List.append_inj' heq rfl
      obtain rfl := List.singleton_inj.mp hvw
      have hafter : reset ∉ after ∧ reset ≠ v := by simpa using hafter
      exact .inr ⟨hafter.2.symm, before, after, rfl, hafter.1⟩
  · rintro (rfl | ⟨hv, before, after, rfl, hafter⟩)
    · exact ⟨us, [], rfl, List.not_mem_nil⟩
    · refine ⟨before, after ++ [v], by simp, ?_⟩
      simp [hafter, Ne.symm hv]

end History
