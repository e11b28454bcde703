import Mathlib.Logic.Function.Basic

/-!
# Qsym.Heap.Blocks

A heap of blocks of cells, as C programs see it: a pointer is a block and an offset, an
access outside a block or after its release has no result. It names nothing of the
program: the cells are of any type.

`realloc` keeps what both blocks have room for and promises nothing about the other cells.
`copy` is the loop of `memcpy`. It has a result exactly as long as it stays in live cells
(`copy_eq_some`, `live_of_copy`).
-/

namespace Qsym

/-- A cell of a block. -/
@[ext]
structure Ptr where
  block : Nat
  off : Nat
deriving DecidableEq

def Ptr.add (p : Ptr) (i : Nat) : Ptr :=
  { p with off := p.off + i }

/-- The cells that may be accessed. Blocks from `next` on have not been handed out. -/
structure Heap (α : Type) where
  cell : Ptr → Option α
  next : Nat
  fresh : ∀ p, next ≤ p.block → cell p = none

theorem Ptr.add_add (p : Ptr) (i j : Nat) : (p.add i).add j = p.add (i + j) := by
  simp [Ptr.add, Nat.add_assoc]

namespace Heap

variable {α : Type} (h : Heap α)

/-- A new block of `n` cells that hold `x`. -/
def alloc (n : Nat) (x : α) : Ptr × Heap α :=
  (⟨h.next, 0⟩,
    { cell p := if p.block = h.next then if p.off < n then some x else none else h.cell p
      next := h.next + 1
      fresh p hp := by
        rw [if_neg (by omega)]
        exact h.fresh p (by omega) })

/-- The cells `p`, …, `p + n - 1` are given back. -/
def free (p : Ptr) (n : Nat) : Heap α :=
  { cell q := if q.block = p.block ∧ p.off ≤ q.off ∧ q.off < p.off + n then none else h.cell q
    next := h.next
    fresh q hq := by
      split
      next => rfl
      next => exact h.fresh q hq }

/-- A new block of `n` cells that begins with the cells of the block `old`, which is given
back; `rest` is in the cells that `old` does not have. -/
def realloc (old : Option Ptr) (n : Nat) (rest : Nat → α) : Ptr × Heap α :=
  (⟨h.next, 0⟩,
    { cell p :=
        if p.block = h.next then
          if p.off < n then
            some ((old.bind fun q => h.cell (q.add p.off)).getD (rest p.off))
          else none
        else if some p.block = old.map Ptr.block then none
        else h.cell p
      next := h.next + 1
      fresh p hp := by
        rw [if_neg (by omega)]
        split
        next => rfl
        next => exact h.fresh p (by omega) })

def store (p : Ptr) (x : α) : Option (Heap α) :=
  match hp : h.cell p with
  | none => none
  | some _ => some
      { cell := Function.update h.cell p (some x)
        next := h.next
        fresh q hq := by
          by_cases hqp : q = p
          · rw [← hqp, h.fresh q hq] at hp
            cases hp
          · rw [Function.update_of_ne hqp]
            exact h.fresh q hq }

/-- The first `n` cells from `src` on are copied to the ones from `dst` on. -/
def copy (dst src : Ptr) : Nat → Option (Heap α)
  | 0 => some h
  | n + 1 => do
      let h ← copy dst src n
      let x ← h.cell (src.add n)
      h.store (dst.add n) x

variable {h} {h' : Heap α} {p q dst src : Ptr} {n : Nat} {x : α}

/-- The cells of a new block. -/
theorem alloc_cell_new (h : Heap α) (n : Nat) (x : α) (i : Nat) :
    (h.alloc n x).2.cell (Ptr.add ⟨h.next, 0⟩ i) = if i < n then some x else none := by
  simp [alloc, Ptr.add]

theorem alloc_cell_of_lt (hp : p.block < h.next) : (h.alloc n x).2.cell p = h.cell p :=
  if_neg (Nat.ne_of_lt hp)

/-- The cells of a block that was resized. -/
theorem realloc_cell_new (h : Heap α) (old : Option Ptr) (n : Nat) (rest : Nat → α) (i : Nat) :
    (h.realloc old n rest).2.cell (Ptr.add ⟨h.next, 0⟩ i) =
      if i < n then some ((old.bind fun q => h.cell (q.add i)).getD (rest i)) else none := by
  simp [realloc, Ptr.add]

theorem free_cell_of_ne (hp : q.block ≠ p.block) : (h.free p n).cell q = h.cell q :=
  if_neg fun hq => hp hq.1

theorem free_cell_of_forall_ne (hq : ∀ i < n, q ≠ p.add i) : (h.free p n).cell q = h.cell q := by
  refine if_neg fun ⟨hb, hle, hlt⟩ => hq (q.off - p.off) (by omega) ?_
  simp [Ptr.ext_iff, Ptr.add, hb, hle]

theorem store_eq_some (hs : h.store p x = some h') :
    h.cell p ≠ none ∧ h'.cell = Function.update h.cell p (some x) ∧ h'.next = h.next := by
  unfold store at hs
  split at hs
  next => cases hs
  next _ hp =>
      cases hs
      exact ⟨by simp [hp], rfl, rfl⟩

theorem store_isSome (x : α) (hp : h.cell p ≠ none) : ∃ h', h.store p x = some h' := by
  unfold store
  split
  next hn => exact absurd hn hp
  next => exact ⟨_, rfl⟩

/-- What was copied so far, and that the copy stayed in live cells. -/
theorem copy_eq_some (hne : dst.block ≠ src.block) (hc : h.copy dst src n = some h') :
    h'.next = h.next ∧ (∀ i < n, h'.cell (dst.add i) = h.cell (src.add i)) ∧
      ∀ q, (∀ i < n, q ≠ dst.add i) → h'.cell q = h.cell q := by
  induction n generalizing h' with
  | zero =>
      cases hc
      exact ⟨rfl, nofun, fun _ _ => rfl⟩
  | succ n ih =>
      simp only [copy, Option.bind_eq_bind, Option.bind_eq_some_iff] at hc
      obtain ⟨h₁, hc₁, x, hx, hs⟩ := hc
      obtain ⟨hn₁, hin₁, hout₁⟩ := ih hc₁
      obtain ⟨-, hcell, hnext⟩ := store_eq_some hs
      have hsrc (i : Nat) : ∀ j < n, src.add i ≠ dst.add j := fun j _ heq =>
        hne (congrArg Ptr.block heq).symm
      refine ⟨hnext.trans hn₁, fun i hi => ?_, fun q hq => ?_⟩
      · rcases Nat.lt_succ_iff_lt_or_eq.1 hi with hi | rfl
        · have hdst : dst.add i ≠ dst.add n := fun heq => by
            simp only [Ptr.add, Ptr.mk.injEq] at heq
            omega
          rw [hcell, Function.update_of_ne hdst, hin₁ i hi]
        · rw [hcell, Function.update_self, ← hout₁ _ (hsrc i), hx]
      · rw [hcell, Function.update_of_ne (hq n (Nat.lt_succ_self n))]
        exact hout₁ q fun i hi => hq i (Nat.lt_succ_of_lt hi)

theorem live_of_copy (hne : dst.block ≠ src.block) (hc : h.copy dst src n = some h') :
    ∀ i < n, h.cell (dst.add i) ≠ none ∧ h.cell (src.add i) ≠ none := by
  induction n generalizing h' with
  | zero => exact nofun
  | succ n ih =>
      simp only [copy, Option.bind_eq_bind, Option.bind_eq_some_iff] at hc
      obtain ⟨h₁, hc₁, x, hx, hs⟩ := hc
      obtain ⟨-, -, hout⟩ := copy_eq_some hne hc₁
      intro i hi
      rcases Nat.lt_succ_iff_lt_or_eq.1 hi with hi | rfl
      · exact ih hc₁ i hi
      · have hdst : ∀ j < i, dst.add i ≠ dst.add j := fun j hj heq => by
          simp only [Ptr.add, Ptr.mk.injEq] at heq
          omega
        have hsrc : ∀ j < i, src.add i ≠ dst.add j := fun j _ heq =>
          hne (congrArg Ptr.block heq).symm
        rw [← hout _ hdst, ← hout _ hsrc, hx]
        exact ⟨(store_eq_some hs).1, nofun⟩

/-- A copy between live cells has a result. -/
theorem copy_isSome (hne : dst.block ≠ src.block) (hdst : ∀ i < n, h.cell (dst.add i) ≠ none)
    (hsrc : ∀ i < n, h.cell (src.add i) ≠ none) : ∃ h', h.copy dst src n = some h' := by
  induction n with
  | zero => exact ⟨h, rfl⟩
  | succ n ih =>
      obtain ⟨h₁, hc₁⟩ := ih (fun i hi => hdst i (Nat.lt_succ_of_lt hi))
        fun i hi => hsrc i (Nat.lt_succ_of_lt hi)
      obtain ⟨-, -, hout⟩ := copy_eq_some hne hc₁
      have hd : ∀ i < n, dst.add n ≠ dst.add i := fun i hi heq => by
        simp only [Ptr.add, Ptr.mk.injEq] at heq
        omega
      have hs : ∀ i < n, src.add n ≠ dst.add i := fun i _ heq =>
        hne (congrArg Ptr.block heq).symm
      obtain ⟨x, hx⟩ := Option.ne_none_iff_exists'.1
        (hout _ hs ▸ hsrc n (Nat.lt_succ_self n) : h₁.cell (src.add n) ≠ none)
      obtain ⟨h', hs'⟩ := store_isSome x
        (hout _ hd ▸ hdst n (Nat.lt_succ_self n) : h₁.cell (dst.add n) ≠ none)
      exact ⟨h', by simp only [copy, hc₁, Option.bind_eq_bind, Option.bind_some, hx, hs']⟩

end Heap

end Qsym
