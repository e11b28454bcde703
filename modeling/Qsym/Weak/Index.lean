import Mathlib.Data.List.Pairwise

/-!
# Qsym.Weak.Index

A **set that indexes a queue of weak references**. An entry of either container can
expire at any moment, and neither is told; an expired entry of the set can no longer be
looked up, so it stays there until it is swept.

What holds all the time is about the live entries: both containers have the same ones,
each once, and no two of them are the same to the equality of the set (`Indexed`).
-/

namespace Weak

variable {α : Type}

/-- The entries that have not expired. -/
def live (dead : α → Bool) (l : List α) : List α :=
  l.filter fun x => !dead x

/-- The set and the queue have the same live entries, which are pairwise different. -/
structure Indexed (same : α → α → Bool) (dead : α → Bool) (set queue : List α) : Prop where
  perm : (live dead set).Perm (live dead queue)
  apart : (live dead queue).Pairwise fun x y => same x y = false

variable {same : α → α → Bool} {dead dead' : α → Bool} {set queue : List α} {x y e : α}

theorem mem_live {l : List α} : x ∈ live dead l ↔ x ∈ l ∧ dead x = false := by
  simp [live]

theorem live_cons_of_dead {l : List α} (hx : dead x = true) : live dead (x :: l) = live dead l := by
  simp [live, hx]

theorem live_cons_of_live {l : List α} (hx : dead x = false) :
    live dead (x :: l) = x :: live dead l := by
  simp [live, hx]

/-- Expiring more entries leaves fewer of the live ones. -/
theorem live_live (h : ∀ x, dead x = true → dead' x = true) (l : List α) :
    live dead' (live dead l) = live dead' l := by
  rw [live, live, List.filter_filter]
  refine List.filter_congr fun x _ => ?_
  cases hx : dead x with
  | false => simp
  | true => simp [h x hx]

/-- The live entry that is the same as `e`, if there is one. -/
theorem of_find? (h : (set.find? fun x => !dead x && same x e) = some x) :
    x ∈ set ∧ dead x = false ∧ same x e = true := by
  have hx := List.find?_some h
  simp only [Bool.and_eq_true, Bool.not_eq_true'] at hx
  exact ⟨List.mem_of_find?_eq_some h, hx⟩

theorem find?_eq_none : (set.find? fun x => !dead x && same x e) = none ↔
    ∀ x ∈ set, dead x = false → same x e = false := by
  simp [List.find?_eq_none]

namespace Indexed

theorem nil : Indexed same dead [] [] :=
  ⟨.refl _, .nil⟩

theorem mem_iff (h : Indexed same dead set queue) (hx : dead x = false) :
    x ∈ set ↔ x ∈ queue := by
  have hmem := h.perm.mem_iff (a := x)
  simpa [mem_live, hx] using hmem

/-- The live entries of the set are pairwise different as well. -/
theorem apart_set (hsymm : ∀ x y, same x y = same y x) (h : Indexed same dead set queue) :
    (live dead set).Pairwise fun x y => same x y = false :=
  h.perm.symm.pairwise h.apart fun {x y} hxy => (hsymm y x).trans hxy

/-- Live entries of the set that are the same are one. -/
theorem eq_of_same (hsymm : ∀ x y, same x y = same y x) (h : Indexed same dead set queue)
    (hx : x ∈ set) (hy : y ∈ set) (hdx : dead x = false) (hdy : dead y = false)
    (hxy : same x y = true) : x = y := by
  by_contra hne
  have : Std.Symm fun x y => same x y = false := ⟨fun x y h => (hsymm y x).trans h⟩
  have hapart := (h.apart_set hsymm).forall (mem_live.2 ⟨hx, hdx⟩) (mem_live.2 ⟨hy, hdy⟩) hne
  rw [hapart] at hxy
  cases hxy

/-- Entries may expire. -/
theorem expire (h : Indexed same dead set queue) (hdead : ∀ x, dead x = true → dead' x = true) :
    Indexed same dead' set queue := by
  constructor
  · rw [← live_live hdead set, ← live_live hdead queue]
    exact h.perm.filter _
  · rw [← live_live hdead queue]
    exact h.apart.filter _

/-- An entry that the set does not have goes to the end of the queue. -/
theorem push (h : Indexed same dead set queue) (he : dead e = false)
    (hnew : ∀ x ∈ set, dead x = false → same x e = false) :
    Indexed same dead (e :: set) (queue ++ [e]) := by
  have hqueue : live dead (queue ++ [e]) = live dead queue ++ [e] := by simp [live, he]
  constructor
  · rw [hqueue, live_cons_of_live he]
    exact (h.perm.cons e).trans (List.perm_append_singleton e _).symm
  · rw [hqueue, List.pairwise_append]
    refine ⟨h.apart, List.pairwise_singleton _ _, fun x hx y hy => ?_⟩
    rw [List.mem_singleton.1 hy]
    obtain ⟨hmem, hdead⟩ := mem_live.1 hx
    exact hnew x ((h.mem_iff hdead).2 hmem) hdead

/-- The oldest entry leaves the queue when it has expired; the set keeps it. -/
theorem pop_dead (h : Indexed same dead set (x :: queue)) (hx : dead x = true) :
    Indexed same dead set queue := by
  obtain ⟨hperm, hapart⟩ := h
  rw [live_cons_of_dead hx] at hperm hapart
  exact ⟨hperm, hapart⟩

/-- The oldest entry leaves both containers when it is live: what the set finds for it is
the entry itself. -/
theorem pop_live (hrefl : ∀ x, same x x = true) (hsymm : ∀ x y, same x y = same y x)
    (h : Indexed same dead set (x :: queue)) (hx : dead x = false) :
    Indexed same dead (set.eraseP fun y => !dead y && same y x) queue := by
  have hmem : x ∈ set := (h.mem_iff hx).2 List.mem_cons_self
  obtain ⟨y, l₁, l₂, -, hy, hset, herase⟩ :=
    List.exists_of_eraseP (p := fun y => !dead y && same y x) hmem (by simp [hx, hrefl])
  simp only [Bool.and_eq_true, Bool.not_eq_true'] at hy
  have hyx : y = x := h.eq_of_same hsymm (by simp [hset]) hmem hy.1 hx hy.2
  subst hyx
  have hperm := h.perm
  have hapart := h.apart
  rw [live_cons_of_live hx] at hperm hapart
  refine ⟨?_, (List.pairwise_cons.1 hapart).2⟩
  rw [herase]
  refine List.Perm.cons_inv (a := y) (.trans ?_ hperm)
  rw [hset, ← live_cons_of_live hx]
  exact List.perm_middle.symm.filter _

/-- Sweeping the expired entries out of the set. -/
theorem sweep (h : Indexed same dead set queue) : Indexed same dead (live dead set) queue :=
  ⟨by rw [live_live fun _ => id]; exact h.perm, h.apart⟩

/-- A set that was swept is no longer than the queue. -/
theorem length_sweep (h : Indexed same dead set queue) :
    (live dead set).length ≤ queue.length := by
  rw [h.perm.length_eq]
  exact List.length_filter_le _ _

end Indexed

end Weak
