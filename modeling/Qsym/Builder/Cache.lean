import Qsym.Builder.Layers
import Qsym.Expr.Agrees
import Qsym.Weak.Index

/-!
# Qsym.Builder.Cache

The **life of an expression cache**: what its set and its queue hold after any sequence of
insertions, look-ups and expirations.

The set is an index of the queue (`Weak.Indexed`), and the queue is the last `limit`
entries that went in (`Kept`). One event keeps both, whatever has expired by then; what
the builder over the cache returns is then as good as what it was given.
-/

namespace Qsym

open Procedure

/-! ### Shallow equality -/

namespace Expr

theorem equalShallowly_refl (e : Expr) : e.equalShallowly e = true := by
  cases e <;> simp [equalShallowly]

theorem equalShallowly_comm (e e' : Expr) : e.equalShallowly e' = e'.equalShallowly e := by
  rw [Bool.eq_iff_iff]
  cases e <;> cases e' <;>
    simp only [equalShallowly, Bool.and_eq_true, beq_iff_eq, Bool.false_eq_true] <;>
    simp only [eq_comm]

/-- The same width, the same sort, and the same value under every input. -/
def SameMeaning (e e' : Expr) : Prop :=
  e.bits = e'.bits ∧ e.isBoolean = e'.isBoolean ∧ ∀ ρ, e.value ρ = e'.value ρ

theorem SameMeaning.refl (e : Expr) : e.SameMeaning e :=
  ⟨rfl, rfl, fun _ => rfl⟩

theorem sameMeaning_of_equalShallowly {e e' : Expr} (h : e.equalShallowly e' = true) :
    e.SameMeaning e' := by
  cases e <;> cases e' <;> simp only [equalShallowly, Bool.and_eq_true, beq_iff_eq,
    Bool.false_eq_true] at h
  case bool.bool | read.read =>
      subst h
      exact ⟨rfl, rfl, fun _ => rfl⟩
  case constant.constant =>
      obtain ⟨rfl, hv⟩ := h
      exact ⟨rfl, rfl, fun _ => hv⟩
  case concat.concat | unary.unary =>
      obtain ⟨rfl, rfl⟩ := h
      exact ⟨rfl, rfl, fun _ => rfl⟩
  case extract.extract | ext.ext | binary.binary | compare.compare | ite.ite =>
      obtain ⟨⟨rfl, rfl⟩, rfl⟩ := h
      exact ⟨rfl, rfl, fun _ => rfl⟩

end Expr

/-! ### Events -/

/-- What can happen to a cache. Its users hold the expression that they pass; others may
expire at any moment. -/
inductive CacheEvent
  | insert (e : Expr)
  | find (e : Expr)
  | expire (gone : Expr → Bool)

/-- A cache, what has expired, and everything that was ever entered, the oldest first. -/
structure CacheState where
  cache : ExprCache
  expired : Expr → Bool
  entered : List Expr

namespace CacheState

/-- `ExprCache::ExprCache` -/
def new : CacheState :=
  { cache := { set := [], queue := [] }, expired := fun _ => false, entered := [] }

/-- One event. `WeakExprRefHash` asserts that the expression has not expired. -/
def step (s : CacheState) : CacheEvent → Option CacheState
  | .insert e =>
      if s.expired e then none
      else some { s with
        cache := s.cache.insert s.expired e
        entered := if (s.cache.find s.expired e).isSome then s.entered else s.entered ++ [e] }
  | .find e => if s.expired e then none else some s
  | .expire gone => some { s with expired := fun x => s.expired x || gone x }

def run (s : CacheState) : List CacheEvent → Option CacheState
  | [] => some s
  | event :: events => (s.step event).bind fun s => s.run events

/-- The set is an index of the queue, and the queue is the last `limit` entries. -/
structure Kept (s : CacheState) : Prop where
  indexed : Weak.Indexed Expr.equalShallowly s.expired s.cache.set s.cache.queue
  queue : s.cache.queue = s.entered.drop (s.entered.length - ExprCache.limit)
  set_le : s.cache.set.length ≤ ExprCache.limit * 16

end CacheState

/-! ### One insertion -/

namespace ExprCache

variable {expired : Expr → Bool} {cache : ExprCache} {e x : Expr}

theorem of_find (h : cache.find expired e = some x) :
    x ∈ cache.set ∧ expired x = false ∧ x.equalShallowly e = true :=
  Weak.of_find? h

/-- The oldest entry leaves a queue that is too long. -/
def dropOldest (expired : Expr → Bool) (cache : ExprCache) : ExprCache :=
  if limit < cache.queue.length then
    match cache.queue with
    | [] => cache
    | item :: queue =>
        if expired item then { cache with queue }
        else
          { set := cache.set.eraseP fun x => !expired x && x.equalShallowly item
            queue }
  else cache

theorem shrink_eq : cache.shrink expired =
    if limit * 16 < (cache.dropOldest expired).set.length then
      (cache.dropOldest expired).cleanup expired
    else cache.dropOldest expired := rfl

theorem dropOldest_queue : (cache.dropOldest expired).queue =
    cache.queue.drop (if limit < cache.queue.length then 1 else 0) := by
  unfold dropOldest
  split
  next =>
      split
      next hnil => rw [hnil, List.drop_nil]
      next item queue hqueue =>
          rw [hqueue, List.drop_one, List.tail_cons]
          split <;> rfl
  next => rfl

theorem dropOldest_indexed
    (h : Weak.Indexed Expr.equalShallowly expired cache.set cache.queue) :
    Weak.Indexed Expr.equalShallowly expired (cache.dropOldest expired).set
      (cache.dropOldest expired).queue := by
  unfold dropOldest
  split
  next =>
      split
      next => exact h
      next item queue hqueue =>
          rw [hqueue] at h
          split
          next hitem => exact h.pop_dead hitem
          next hitem =>
              exact h.pop_live Expr.equalShallowly_refl Expr.equalShallowly_comm
                (Bool.eq_false_iff.2 hitem)
  next => exact h

theorem shrink_queue : (cache.shrink expired).queue = (cache.dropOldest expired).queue := by
  rw [shrink_eq]
  split <;> rfl

theorem shrink_indexed (h : Weak.Indexed Expr.equalShallowly expired cache.set cache.queue) :
    Weak.Indexed Expr.equalShallowly expired (cache.shrink expired).set
      (cache.shrink expired).queue := by
  have hdrop := dropOldest_indexed h
  rw [shrink_eq]
  split
  next => exact hdrop.sweep
  next => exact hdrop

/-- When the set has grown too long, most of its entries have expired. -/
theorem shrink_set_le (h : Weak.Indexed Expr.equalShallowly expired cache.set cache.queue)
    (hqueue : (cache.dropOldest expired).queue.length ≤ limit) :
    (cache.shrink expired).set.length ≤ limit * 16 := by
  rw [shrink_eq]
  split
  next =>
      have hsweep := (dropOldest_indexed h).length_sweep
      exact Nat.le_trans (Nat.le_trans hsweep hqueue) (Nat.le_mul_of_pos_right _ (by decide))
  next hle => exact Nat.le_of_not_lt hle

end ExprCache

/-! ### Every run -/

namespace CacheState

variable {s s' : CacheState} {e : Expr} {events : List CacheEvent}

theorem new_kept : new.Kept :=
  ⟨.nil, rfl, Nat.zero_le _⟩

theorem Kept.queue_le (h : s.Kept) : s.cache.queue.length ≤ ExprCache.limit := by
  rw [h.queue, List.length_drop]
  omega

/-- An expression that is found stays where it is; the others come last in the queue. -/
theorem Kept.insert (h : s.Kept) (he : s.expired e = false) (hs : s.step (.insert e) = some s') :
    s'.Kept := by
  simp only [step, he, Bool.false_eq_true, if_false, Option.some.injEq] at hs
  subst hs
  cases hfind : s.cache.find s.expired e with
  | some x =>
      have hqueue : (s.cache.dropOldest s.expired).queue = s.cache.queue := by
        rw [ExprCache.dropOldest_queue, if_neg (Nat.not_lt.2 h.queue_le), List.drop_zero]
      have hinsert : s.cache.insert s.expired e = s.cache.shrink s.expired := by
        simp [ExprCache.insert, hfind]
      refine ⟨?_, ?_, ?_⟩
      · simpa only [hinsert] using ExprCache.shrink_indexed h.indexed
      · simpa only [hinsert, Option.isSome_some, if_true, ExprCache.shrink_queue, hqueue]
          using h.queue
      · simpa only [hinsert] using ExprCache.shrink_set_le h.indexed (hqueue ▸ h.queue_le)
  | none =>
      have hpush := h.indexed.push he (Weak.find?_eq_none.1 hfind)
      have hinsert : s.cache.insert s.expired e =
          ExprCache.shrink s.expired ⟨e :: s.cache.set, s.cache.queue ++ [e]⟩ := by
        simp [ExprCache.insert, hfind]
      have hqueue : (ExprCache.dropOldest s.expired ⟨e :: s.cache.set, s.cache.queue ++ [e]⟩).queue
          = (s.entered ++ [e]).drop ((s.entered ++ [e]).length - ExprCache.limit) := by
        rw [ExprCache.dropOldest_queue]
        simp only [h.queue]
        rw [← List.drop_append_of_le_length (Nat.sub_le _ _), List.drop_drop]
        generalize ExprCache.limit = limit
        congr 1
        simp only [List.length_drop, List.length_append, List.length_singleton]
        split <;> omega
      refine ⟨?_, ?_, ?_⟩
      · simpa only [hinsert] using ExprCache.shrink_indexed hpush
      · simpa only [hinsert, Option.isSome_none, Bool.false_eq_true, if_false,
          ExprCache.shrink_queue] using hqueue
      · have hle : (ExprCache.dropOldest s.expired
            ⟨e :: s.cache.set, s.cache.queue ++ [e]⟩).queue.length ≤ ExprCache.limit := by
          rw [hqueue, List.length_drop]
          omega
        have hset := ExprCache.shrink_set_le hpush hle
        rw [← hinsert] at hset
        exact hset

theorem Kept.step {event : CacheEvent} (h : s.Kept) (hs : s.step event = some s') : s'.Kept := by
  cases event with
  | insert e =>
      cases he : s.expired e with
      | true => simp [CacheState.step, he] at hs
      | false => exact h.insert he hs
  | find e =>
      cases he : s.expired e with
      | true => simp [CacheState.step, he] at hs
      | false =>
          simp only [CacheState.step, he, Bool.false_eq_true, if_false, Option.some.injEq] at hs
          exact hs ▸ h
  | expire gone =>
      simp only [CacheState.step, Option.some.injEq] at hs
      subst hs
      exact ⟨h.indexed.expire fun x hx => by simp [hx], h.queue, h.set_le⟩

theorem Kept.run (h : s.Kept) (hs : s.run events = some s') : s'.Kept := by
  induction events generalizing s with
  | nil =>
      cases hs
      exact h
  | cons event events ih =>
      obtain ⟨s₁, h₁, hs⟩ := Option.bind_eq_some_iff.1 hs
      exact ih (h.step h₁) hs

end CacheState

/-! ### The builder over the cache -/

namespace CacheExprBuilder

variable {methods : MethodCall → Build Expr} {σ : Session} {next : ExprBuilder} {c : Call}
  {w w' : World} {e e' : Expr}

theorem sameMeaning_of_findOrInsert (h : Runs methods (findOrInsert σ e) w e' w') :
    e'.SameMeaning e := by
  obtain ⟨n, h⟩ := h
  simp only [findOrInsert, findInCache, Build.ask, Program.run] at h
  cases hfind : w.cache.find (σ.expired w.tick) e with
  | none =>
      simp only [hfind, insertToCache, Program.run, Option.some.injEq, Prod.mk.injEq] at h
      exact h.1 ▸ .refl e
  | some x =>
      simp only [hfind, Program.run, Option.some.injEq, Prod.mk.injEq] at h
      exact h.1 ▸ Expr.sameMeaning_of_equalShallowly (ExprCache.of_find hfind).2.2

/-- The cache hands out what the next builder made, or a node with its meaning. -/
theorem sameMeaning_of_body (h : Runs methods (body σ next c) w e w') :
    ∃ e' w₁, Runs methods (next.create c) w e' w₁ ∧ e.SameMeaning e' := by
  cases c with
  | bool | constant | read => exact ⟨e, w', h, .refl e⟩
  | _ =>
      obtain ⟨e', w₁, hnext, hcache⟩ := Runs.bind_iff.1 h
      exact ⟨e', w₁, hnext, sameMeaning_of_findOrInsert hcache⟩

end CacheExprBuilder

namespace CacheState

/-- **The cache over its life.** Whatever is inserted, looked up and expires, both
containers stay within their bounds and agree on the live entries, which differ from one
another; the queue is what was entered last. A look-up finds a live entry that is shallowly
equal, so the builder over the cache changes no meaning. -/
theorem run_keeps {events : List CacheEvent} {s : CacheState} (h : new.run events = some s) :
    (s.cache.queue.length ≤ ExprCache.limit ∧ s.cache.set.length ≤ 16 * ExprCache.limit) ∧
      (∀ x, s.expired x = false → (x ∈ s.cache.set ↔ x ∈ s.cache.queue)) ∧
      (Weak.live s.expired s.cache.set).Pairwise (fun x y => x.equalShallowly y = false) ∧
      s.cache.queue = s.entered.drop (s.entered.length - ExprCache.limit) ∧
      (∀ e x, s.cache.find s.expired e = some x →
        x ∈ s.cache.set ∧ s.expired x = false ∧ x.equalShallowly e = true) ∧
      (∀ x e, Expr.equalShallowly x e = true → x.SameMeaning e) ∧
      ∀ (methods : MethodCall → Build Expr) (σ : Session) (next : ExprBuilder) (c : Call)
        (w w' : World) (e : Expr), Runs methods (CacheExprBuilder.body σ next c) w e w' →
        ∃ e' w₁, Runs methods (next.create c) w e' w₁ ∧ e.SameMeaning e' := by
  have hkept := new_kept.run h
  refine ⟨⟨hkept.queue_le, ?_⟩, fun x hx => hkept.indexed.mem_iff hx,
    hkept.indexed.apart_set Expr.equalShallowly_comm, hkept.queue,
    fun e x hx => ExprCache.of_find hx, fun x e hx => Expr.sameMeaning_of_equalShallowly hx,
    fun methods σ next c w w' e he => CacheExprBuilder.sameMeaning_of_body he⟩
  rw [Nat.mul_comm]
  exact hkept.set_le

/-- A node that has expired in the set does not stand in the way of an equal one. -/
theorem run_keeps_reinserted : ∃ s, new.run [.insert (.concat 1 (.read 0) (.read 1)),
      .expire (· == .concat 1 (.read 0) (.read 1)), .insert (.concat 2 (.read 0) (.read 1)),
      .find (.concat 3 (.read 0) (.read 1))] = some s ∧
    s.cache.find s.expired (.concat 3 (.read 0) (.read 1)) =
      some (.concat 2 (.read 0) (.read 1)) ∧
    s.cache.queue.length ≤ ExprCache.limit ∧ s.cache.set.length ≤ 16 * ExprCache.limit := by
  obtain ⟨s, hs⟩ : ∃ s, new.run [.insert (.concat 1 (.read 0) (.read 1)),
      .expire (· == .concat 1 (.read 0) (.read 1)), .insert (.concat 2 (.read 0) (.read 1)),
      .find (.concat 3 (.read 0) (.read 1))] = some s := ⟨_, rfl⟩
  refine ⟨s, hs, ?_, (run_keeps hs).1⟩
  cases hs
  decide

end CacheState

end Qsym
