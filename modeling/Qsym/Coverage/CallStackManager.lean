import Qsym.Coverage.Xxh32
import Qsym.Shadow.Memory
import Qsym.Frames.Unwinding
import Qsym.Bits.Backoff

/-!
# Qsym.Coverage.CallStackManager

`CallStackManager`: the shadow call stack, and the count of each basic block in each
calling context that decides whether the block is still worth the symbolic work.

The loop of `visitRet` runs through the stack and asks every time whether the top is the
frame of the return, so a return removes its own frame or the whole stack
(`visitRet_call_stack`). The runs in which that is what the return should do are those of
`Frames.run` (`run_frames`).

A cell of the bitmap counts the visits of its index modulo `2 ^ 16`, from whatever
`new uint16_t[kBitmapSize]` has left there (`run_bitmap`).
-/

namespace Qsym

/-- `kBitmapSize` -/
def kBitmapSize : Nat := 65536

/-- `kStride` -/
def kStride : Nat := 8

/-- A cell for each hash of a block and its context. -/
abbrev Bitmap := Fin kBitmapSize → BitVec 16

structure CallStackManager where
  /-- A `std::vector`: the innermost frame is the last. -/
  call_stack_ : List Addr
  call_stack_hash_ : BitVec 32
  is_interesting_ : Bool
  bitmap_ : Bitmap
  pending_ : Bool
  last_pc_ : Addr

/-- `isPowerOfTwo`, of a `uint16_t`. -/
def isPowerOfTwo (x : BitVec 16) : Bool :=
  x &&& (x - 1) == 0

namespace CallStackManager

/-- The constructor. The cells of `new uint16_t[kBitmapSize]` and `call_stack_hash_` are
what the storage held before. -/
def new (bitmap : Bitmap) (hash : BitVec 32) : CallStackManager where
  call_stack_ := []
  call_stack_hash_ := hash
  is_interesting_ := true
  bitmap_ := bitmap
  pending_ := false
  last_pc_ := 0

/-- The hash that `computeHash` takes of a stack. -/
def stackHash (call_stack : List Addr) : BitVec 32 :=
  let state := Xxh32.reset 0
  let state := Xxh32.update state (call_stack.flatMap Xxh32.bytesOf)
  Xxh32.digest state

variable (s : CallStackManager)

def computeHash : CallStackManager :=
  { s with call_stack_hash_ := stackHash s.call_stack_ }

def visitCall (pc : Addr) : CallStackManager :=
  computeHash { s with call_stack_ := s.call_stack_ ++ [pc] }

/-- The first loop of `visitRet`, over the elements that `it` still has before it. The
element that is compared is `call_stack_.back()`, not `*it`. -/
def numElementsToRemove (pc : Addr) : List Addr → Nat → Nat
  | [], num_elements_to_remove => num_elements_to_remove
  | _ :: its, num_elements_to_remove =>
      let num_elements_to_remove := num_elements_to_remove + 1
      if s.call_stack_.getLast? = some pc then num_elements_to_remove
      else numElementsToRemove pc its num_elements_to_remove

/-- The second loop of `visitRet`. -/
def popBack : Nat → List Addr → List Addr
  | 0, call_stack => call_stack
  | n + 1, call_stack => popBack n call_stack.dropLast

def visitRet (pc : Addr) : CallStackManager :=
  let num_elements_to_remove := s.numElementsToRemove pc s.call_stack_.reverse 0
  computeHash { s with call_stack_ := popBack num_elements_to_remove s.call_stack_ }

def visitBasicBlock (pc : Addr) : CallStackManager :=
  { s with last_pc_ := pc, pending_ := true }

/-- The index that `updateBitmap` counts. -/
def index : Fin kBitmapSize :=
  let state := Xxh32.reset 0
  let state := Xxh32.update state (Xxh32.bytesOf s.last_pc_)
  let state := Xxh32.update state (Xxh32.bytesOf s.call_stack_hash_)
  let h := Xxh32.digest state
  ⟨h.toNat % kBitmapSize, Nat.mod_lt _ (by decide)⟩

def updateBitmap : CallStackManager :=
  -- Lazy update the bitmap when symbolic operation is happened
  if s.pending_ then
    { s with
      pending_ := false
      is_interesting_ := isPowerOfTwo (s.bitmap_ s.index / BitVec.ofNat 16 kStride)
      bitmap_ := Function.update s.bitmap_ s.index (s.bitmap_ s.index + 1) }
  else s

def isInteresting : Bool := s.is_interesting_

end CallStackManager

namespace CallStackManager

/-! ### Runs -/

/-- A call of one of the methods. -/
inductive Event where
  | call (pc : Addr)
  | ret (pc : Addr)
  | block (pc : Addr)
  | update

def step (s : CallStackManager) : Event → CallStackManager
  | .call pc => s.visitCall pc
  | .ret pc => s.visitRet pc
  | .block pc => s.visitBasicBlock pc
  | .update => s.updateBitmap

def run (s : CallStackManager) (es : List Event) : CallStackManager :=
  es.foldl step s

/-- The move of the stack. -/
def Event.move? : Event → Option (Frames.Move Addr)
  | .call pc => some (.call pc)
  | .ret pc => some (.ret pc)
  | .block _ => none
  | .update => none

/-- The index that the event counts. -/
def counted? (s : CallStackManager) : Event → Option (Fin kBitmapSize)
  | .update => if s.pending_ then some s.index else none
  | _ => none

/-- The indices that a run counts. -/
def visits (s : CallStackManager) : List Event → List (Fin kBitmapSize)
  | [] => []
  | e :: es => (s.counted? e).toList ++ (s.step e).visits es

theorem run_append (s : CallStackManager) (es es' : List Event) :
    s.run (es ++ es') = (s.run es).run es' :=
  List.foldl_append

variable {s : CallStackManager} {pc : Addr} {es : List Event}

/-! ### The stack -/

theorem popBack_eq_take (n : Nat) (call_stack : List Addr) :
    popBack n call_stack = call_stack.take (call_stack.length - n) := by
  induction n generalizing call_stack with
  | zero => simp [popBack]
  | succ n ih =>
      rw [popBack, ih, List.dropLast_eq_take, List.take_take, List.length_take]
      congr 1
      omega

/-- The loop counts one element when the frame of the return is on top, and else all. -/
theorem numElementsToRemove_eq (its : List Addr) (n : Nat) :
    s.numElementsToRemove pc its n =
      n + if s.call_stack_.getLast? = some pc then min 1 its.length else its.length := by
  induction its generalizing n with
  | nil => simp [numElementsToRemove]
  | cons a its ih =>
      by_cases htop : s.call_stack_.getLast? = some pc
      · simp [numElementsToRemove, htop]
      · simp only [numElementsToRemove, if_neg htop, ih, List.length_cons]
        omega

theorem visitRet_call_stack (s : CallStackManager) (pc : Addr) :
    (s.visitRet pc).call_stack_ =
      if s.call_stack_.getLast? = some pc then s.call_stack_.dropLast else [] := by
  have hpop : (s.visitRet pc).call_stack_ =
      s.call_stack_.take
        (s.call_stack_.length - s.numElementsToRemove pc s.call_stack_.reverse 0) :=
    popBack_eq_take _ _
  rw [hpop, numElementsToRemove_eq, List.length_reverse, List.dropLast_eq_take]
  split
  next htop =>
    have hpos : 0 < s.call_stack_.length :=
      List.length_pos_of_mem (List.mem_of_getLast? htop)
    congr 1
    omega
  next => simp

/-- The frames, the innermost first. -/
def frames (s : CallStackManager) : List Addr := s.call_stack_.reverse

theorem visitRet_frames (s : CallStackManager) (pc : Addr) :
    (s.visitRet pc).frames = if s.frames.head? = some pc then s.frames.tail else [] := by
  simp only [frames, visitRet_call_stack, List.head?_reverse, List.tail_reverse]
  split <;> rfl

@[simp] theorem visitCall_frames (s : CallStackManager) (pc : Addr) :
    (s.visitCall pc).frames = pc :: s.frames := by
  simp [visitCall, computeHash, frames]

@[simp] theorem updateBitmap_frames (s : CallStackManager) :
    s.updateBitmap.frames = s.frames := by
  unfold updateBitmap
  split <;> rfl

/-- What a return to `pc` is to leave of the stack: the frames below the topmost one of
`pc`, and nothing when there is none. -/
def Returns (call_stack : List Addr) (pc : Addr) (call_stack' : List Addr) : Prop :=
  (∀ below above, call_stack = below ++ pc :: above → pc ∉ above → call_stack' = below) ∧
    (pc ∉ call_stack → call_stack' = [])

/-- The frame of `pc` is on top, or no frame above the bottom one is of `pc`. -/
def Met (call_stack : List Addr) (pc : Addr) : Prop :=
  call_stack.getLast? = some pc ∨ pc ∉ call_stack.tail

theorem returns_iff_unwind {call_stack call_stack' : List Addr} :
    Returns call_stack pc call_stack' ↔
      call_stack'.reverse = Frames.unwind pc call_stack.reverse := by
  by_cases hmem : pc ∈ call_stack
  · obtain ⟨above, below, hsplit, habove⟩ :=
      List.eq_append_cons_of_mem (List.mem_reverse.mpr hmem)
    have hstack : call_stack = below.reverse ++ pc :: above.reverse := by
      rw [← List.reverse_reverse call_stack, hsplit]
      simp
    have hunwind : Frames.unwind pc call_stack.reverse = below := by
      rw [hsplit, Frames.unwind_append_cons habove]
    constructor
    · intro h
      rw [h.1 _ _ hstack (by simpa using habove), hunwind, List.reverse_reverse]
    · intro h
      refine ⟨fun below' above' hsplit' habove' => ?_, fun hnot => absurd hmem hnot⟩
      have hback : Frames.unwind pc call_stack.reverse = below'.reverse := by
        rw [hsplit', List.reverse_append, List.reverse_cons, List.append_assoc,
          List.singleton_append, Frames.unwind_append_cons (by simpa using habove')]
      rwa [hback, List.reverse_inj] at h
  · have hunwind : Frames.unwind pc call_stack.reverse = [] :=
      Frames.unwind_of_notMem fun h => hmem (List.mem_reverse.mp h)
    rw [hunwind, List.reverse_eq_nil_iff]
    refine ⟨fun h => h.2 hmem, fun h => ⟨fun below above hsplit _ => ?_, fun _ => h⟩⟩
    exact absurd (by simp [hsplit]) hmem

/-- One return does what it should exactly when its frame is on top or nothing but the
bottom frame could be it. -/
theorem visitRet_unwinds_iff (s : CallStackManager) (pc : Addr) :
    (s.visitRet pc).frames = Frames.unwind pc s.frames ↔ Met s.call_stack_ pc := by
  have htop : s.frames.head? = s.call_stack_.getLast? := List.head?_reverse
  have hrest : s.frames.dropLast = s.call_stack_.tail.reverse := List.dropLast_reverse
  rw [visitRet_frames, Met, ← List.mem_reverse, ← hrest, ← htop]
  split
  next hhead =>
    obtain ⟨rest, hrest⟩ : ∃ rest, s.frames = pc :: rest :=
      List.head?_eq_some_iff.mp hhead
    simp [hrest, Frames.unwind]
  next hhead =>
    rw [eq_comm, Frames.unwind_eq_nil_iff, or_iff_right hhead]

/-- Every return of the run meets its frame on top, or at most at the bottom. -/
def MetBy (s : CallStackManager) : List Event → Prop
  | [] => True
  | .ret pc :: es => Met s.call_stack_ pc ∧ (s.visitRet pc).MetBy es
  | e :: es => (s.step e).MetBy es

theorem MetBy.tail {e : Event} (h : s.MetBy (e :: es)) : (s.step e).MetBy es := by
  cases e with
  | ret pc => exact h.2
  | call pc => exact h
  | block pc => exact h
  | update => exact h

/-- A run whose returns are all met moves the frames as it should. -/
theorem run_frames (h : s.MetBy es) :
    (s.run es).frames = Frames.run s.frames (es.filterMap Event.move?) := by
  induction es generalizing s with
  | nil => rfl
  | cons e es ih =>
      have hstep : (s.step e).frames = (e.move?.toList).foldl Frames.step s.frames := by
        cases e with
        | call pc => exact visitCall_frames s pc
        | ret pc => exact (visitRet_unwinds_iff s pc).mpr h.1
        | block pc => rfl
        | update => exact updateBitmap_frames s
      rw [show s.run (e :: es) = (s.step e).run es from rfl, ih h.tail, hstep]
      cases e <;> rfl

/-! ### The hash -/

/-- The hash is the one of the stack. -/
def Hashed (s : CallStackManager) : Prop :=
  s.call_stack_hash_ = stackHash s.call_stack_

theorem updateBitmap_stack (s : CallStackManager) :
    s.updateBitmap.call_stack_ = s.call_stack_ ∧
      s.updateBitmap.call_stack_hash_ = s.call_stack_hash_ := by
  unfold updateBitmap
  split <;> exact ⟨rfl, rfl⟩

/-- A move computes the hash, and the other events leave it with the stack. -/
theorem step_hash (s : CallStackManager) (e : Event) :
    if e.move?.isSome then (s.step e).Hashed
    else (s.step e).call_stack_ = s.call_stack_ ∧
      (s.step e).call_stack_hash_ = s.call_stack_hash_ := by
  cases e with
  | call pc => rfl
  | ret pc => rfl
  | block pc => exact ⟨rfl, rfl⟩
  | update => exact updateBitmap_stack s

/-- Once something has moved the stack, its hash is up to date. -/
theorem run_hash (s : CallStackManager) (es : List Event) :
    if es.filterMap Event.move? = [] then
      (s.run es).call_stack_ = s.call_stack_ ∧
        (s.run es).call_stack_hash_ = s.call_stack_hash_
    else (s.run es).Hashed := by
  induction es using List.reverseRecOn with
  | nil => exact ⟨rfl, rfl⟩
  | append_singleton es e ih =>
      have hlast := step_hash (s.run es) e
      rw [run_append, List.filterMap_append]
      change if _ then ((s.run es).step e).call_stack_ = _ ∧
        ((s.run es).step e).call_stack_hash_ = _ else ((s.run es).step e).Hashed
      cases he : e.move? with
      | some move =>
          rw [he] at hlast
          simpa [he] using hlast
      | none =>
          rw [he] at hlast
          obtain ⟨hstack, hhash⟩ := hlast
          simp only [List.filterMap_cons, he, List.filterMap_nil, List.append_nil]
          rw [Hashed, hstack, hhash]
          exact ih

/-- A call, anything in its frame and the return from it give the stack back with its
hash, frames that were left open included, in every run whose returns are met; the hash is
the one from before the call once anything has moved the stack. A single return unwinds
the stack exactly when it is met. -/
theorem run_call_ret (bitmap : Bitmap) (hash : BitVec 32) (es : List Event) :
    let s := (new bitmap hash).run es
    (∀ pc, Returns s.call_stack_ pc (s.visitRet pc).call_stack_ ↔ Met s.call_stack_ pc) ∧
      ∀ r inner, Frames.Within r (inner.filterMap Event.move?) →
        s.MetBy (.call r :: inner ++ [.ret r]) →
          let s' := s.run (.call r :: inner ++ [.ret r])
          s'.call_stack_ = s.call_stack_ ∧ s'.call_stack_hash_ = stackHash s.call_stack_ ∧
            (s'.call_stack_hash_ = s.call_stack_hash_ ↔
              es.filterMap Event.move? ≠ [] ∨ hash = stackHash []) := by
  intro s
  constructor
  · intro pc
    rw [returns_iff_unwind]
    exact visitRet_unwinds_iff s pc
  · intro r inner hinner hmet s'
    have hframes : s'.frames = s.frames := by
      have hmoves : (Event.call r :: inner ++ [Event.ret r]).filterMap Event.move? =
          .call r :: inner.filterMap Event.move? ++ [Frames.Move.ret r] := by
        simp [Event.move?]
      rw [run_frames hmet, hmoves, Frames.run_call_inner_ret hinner]
    have hstack : s'.call_stack_ = s.call_stack_ := List.reverse_inj.mp hframes
    have hhash : s'.call_stack_hash_ = stackHash s.call_stack_ := by
      rw [← hstack]
      have hmoved := run_hash s (.call r :: inner ++ [.ret r])
      rwa [if_neg (by simp [Event.move?])] at hmoved
    refine ⟨hstack, hhash, ?_⟩
    have hbefore := run_hash (new bitmap hash) es
    by_cases hmoves : es.filterMap Event.move? = []
    · rw [if_pos hmoves] at hbefore
      have hs : s.call_stack_ = [] := hbefore.1
      have hinit : s.call_stack_hash_ = hash := hbefore.2
      simp only [hhash, hs, hinit, hmoves, ne_eq, not_true, false_or]
      exact eq_comm
    · rw [if_neg hmoves] at hbefore
      have hs : s.call_stack_hash_ = stackHash s.call_stack_ := hbefore
      simp [hhash, hs, hmoves]

/-- In the frame of `1`, a frame of `2` is left open by the return to `1`. -/
theorem run_call_ret_skipped :
    ((new (fun _ => 0) 0).run [.call 1, .call 2, .ret 1]).call_stack_ = [] := by
  have hmet : (new (fun _ => 0) 0).MetBy (.call 1 :: [.call 2] ++ [Event.ret 1]) := by
    exact ⟨.inr (by simp [step, new, visitCall, computeHash]), trivial⟩
  have hinner : Frames.Within 1 ([Event.call 2].filterMap Event.move?) :=
    .skipped (by decide) (.done 1)
  exact ((run_call_ret (fun _ => 0) 0 []).2 1 [.call 2] hinner hmet).1

/-- The return to the frame of `2` skips the one of `3`, and takes the frame of `1` too. -/
theorem visitRet_empties :
    ¬ ∀ (bitmap : Bitmap) (hash : BitVec 32) (es : List Event) (pc : Addr),
      let s := (new bitmap hash).run es
      Returns s.call_stack_ pc (s.visitRet pc).call_stack_ := by
  intro h
  have hback := (h (fun _ => 0) 0 [.call 1, .call 2, .call 3] 2).1 [1] [3] rfl (by decide)
  rw [visitRet_call_stack] at hback
  simp [run, step, new, visitCall, computeHash] at hback

/-! ### The bitmap -/

/-- An event adds one to the cell of the index it counts. -/
theorem step_bitmap (s : CallStackManager) (e : Event) (i : Fin kBitmapSize) :
    (s.step e).bitmap_ i = s.bitmap_ i + BitVec.ofNat 16 ((s.counted? e).toList.count i) := by
  cases e with
  | call pc => simp [step, visitCall, computeHash, counted?]
  | ret pc => simp [step, visitRet, computeHash, counted?]
  | block pc => simp [step, visitBasicBlock, counted?]
  | update =>
      cases hpending : s.pending_ with
      | false => simp [step, updateBitmap, counted?, hpending]
      | true =>
          by_cases hi : i = s.index
          · simp [step, updateBitmap, counted?, hpending, hi]
          · simp [step, updateBitmap, counted?, hpending, hi, Ne.symm hi]

/-- A cell holds the visits of its index modulo `2 ^ 16`, over what it held first. -/
theorem run_bitmap (s : CallStackManager) (es : List Event) (i : Fin kBitmapSize) :
    (s.run es).bitmap_ i = s.bitmap_ i + BitVec.ofNat 16 ((s.visits es).count i) := by
  induction es generalizing s with
  | nil => simp [run, visits]
  | cons e es ih =>
      calc (s.run (e :: es)).bitmap_ i
          = (s.step e).bitmap_ i + BitVec.ofNat 16 (((s.step e).visits es).count i) := ih _
        _ = s.bitmap_ i + BitVec.ofNat 16 ((s.visits (e :: es)).count i) := by
            rw [step_bitmap, visits, List.count_append, BitVec.ofNat_add, BitVec.add_assoc]

theorem step_isInteresting {e : Event} (hs : s.pending_ = false) (he : ∀ pc, e ≠ .block pc) :
    (s.step e).isInteresting = s.isInteresting ∧ (s.step e).pending_ = false := by
  cases e with
  | call pc => exact ⟨rfl, hs⟩
  | ret pc => exact ⟨rfl, hs⟩
  | block pc => exact absurd rfl (he pc)
  | update => simp [step, updateBitmap, hs]

/-- Without a block that waits for its count, the answer changes at the next block only. -/
theorem run_isInteresting (hs : s.pending_ = false) (hes : ∀ pc, .block pc ∉ es) :
    (s.run es).isInteresting = s.isInteresting := by
  induction es generalizing s with
  | nil => rfl
  | cons e es ih =>
      have hstep := step_isInteresting (e := e) hs fun pc h => hes pc (by simp [h])
      rw [← hstep.1]
      exact ih hstep.2 fun pc h => hes pc (List.mem_cons_of_mem e h)

/-- The `n`-th count after the first one is of interest. -/
def Scheduled (n : Nat) : Prop :=
  Bits.Sampled (n / kStride)

instance : DecidablePred Scheduled :=
  fun n => inferInstanceAs (Decidable (Bits.Sampled (n / kStride)))

theorem isPowerOfTwo_iff (x : BitVec 16) : isPowerOfTwo x = true ↔ Bits.Sampled x.toNat := by
  rw [isPowerOfTwo, beq_iff_eq, Bits.and_sub_one_eq_zero_iff]

/-- What a counted visit answers. -/
theorem updateBitmap_isInteresting (hs : s.pending_ = true) :
    s.updateBitmap.isInteresting = true ↔ Scheduled (s.bitmap_ s.index).toNat := by
  have hstride : (s.bitmap_ s.index / BitVec.ofNat 16 kStride).toNat =
      (s.bitmap_ s.index).toNat / kStride := by
    rw [BitVec.toNat_udiv]
    rfl
  rw [Scheduled, ← hstride, ← isPowerOfTwo_iff]
  simp [updateBitmap, hs, isInteresting]

/-- A count keeps its place in the schedule when it wraps: the powers of two from `2 ^ 16`
on fall together with 0. -/
theorem Scheduled.mod {n : Nat} (h : Scheduled n) : Scheduled (n % 2 ^ 16) := by
  have hround : n % 2 ^ 16 / kStride = n / kStride % 2 ^ 13 := by
    rw [kStride]
    omega
  rw [Scheduled, hround]
  exact Bits.Sampled.mod_two_pow h 13

/-- The visit that has `n` counted visits of its index before it follows the schedule
exactly when the cell, at `n` over its first contents and modulo `2 ^ 16`, stands at a
scheduled count if and only if `n` is one. Of an array of zeros that fails where `n` has
wrapped to a scheduled count without being one. Until the next block the answer stays. -/
theorem updateBitmap_scheduled_iff (bitmap : Bitmap) (hash : BitVec 32) (es : List Event)
    (hpending : ((new bitmap hash).run es).pending_ = true) :
    let s := (new bitmap hash).run es
    let n := ((new bitmap hash).visits es).count s.index
    ((s.updateBitmap.isInteresting = true ↔ Scheduled n) ↔
        (Scheduled (((bitmap s.index).toNat + n) % 2 ^ 16) ↔ Scheduled n)) ∧
      (bitmap s.index = 0 →
        ((s.updateBitmap.isInteresting = true ↔ Scheduled n) ↔
          (Scheduled (n % 2 ^ 16) → Scheduled n))) ∧
      ∀ rest, (∀ pc, .block pc ∉ rest) →
        (s.updateBitmap.run rest).isInteresting = s.updateBitmap.isInteresting := by
  intro s n
  have hcell : (s.bitmap_ s.index).toNat = ((bitmap s.index).toNat + n) % 2 ^ 16 := by
    have hrun : s.bitmap_ s.index = bitmap s.index + BitVec.ofNat 16 n := run_bitmap _ es _
    rw [hrun, BitVec.toNat_add, BitVec.toNat_ofNat, Nat.add_mod_mod]
  have hanswer : s.updateBitmap.isInteresting = true ↔
      Scheduled (((bitmap s.index).toNat + n) % 2 ^ 16) := by
    rw [updateBitmap_isInteresting hpending, hcell]
  refine ⟨by rw [hanswer], fun hzero => ?_, fun rest hrest => ?_⟩
  · rw [hanswer, hzero, BitVec.ofNat_eq_ofNat, BitVec.toNat_ofNat, Nat.zero_mod, Nat.zero_add]
    exact ⟨fun h => h.mp, fun h => ⟨h, Scheduled.mod⟩⟩
  · exact run_isInteresting (by simp [updateBitmap, s, hpending]) hrest

/-- The first visit of a block, on an array of zeros. -/
theorem updateBitmap_scheduled_first :
    ((new (fun _ => 0) 0).run [.block 0]).updateBitmap.isInteresting = true :=
  (((updateBitmap_scheduled_iff (fun _ => 0) 0 [.block 0] rfl).2.1 rfl).mpr
    fun _ => .inl rfl).mpr (.inl rfl)

theorem visits_append (s : CallStackManager) (es es' : List Event) :
    s.visits (es ++ es') = s.visits es ++ (s.run es).visits es' := by
  induction es generalizing s with
  | nil => rfl
  | cons e es ih => rw [List.cons_append, visits, ih, visits, List.append_assoc]; rfl

/-- A block that is counted `k` times in one context. -/
def loop (pc : Addr) (k : Nat) : List Event :=
  (List.replicate k [.block pc, .update]).flatten

theorem loop_succ (pc : Addr) (k : Nat) : loop pc (k + 1) = .block pc :: .update :: loop pc k := by
  rw [loop, List.replicate_succ, List.flatten_cons]
  rfl

theorem visits_loop (s : CallStackManager) (pc : Addr) (k : Nat) :
    s.visits (loop pc k) = List.replicate k (s.visitBasicBlock pc).index ∧
      ((s.run (loop pc k)).visitBasicBlock pc).index = (s.visitBasicBlock pc).index := by
  induction k generalizing s with
  | zero => exact ⟨rfl, rfl⟩
  | succ k ih =>
      obtain ⟨hvisits, hindex⟩ := ih (s.visitBasicBlock pc).updateBitmap
      have hround : ((s.visitBasicBlock pc).updateBitmap.visitBasicBlock pc).index =
          (s.visitBasicBlock pc).index := rfl
      rw [hround] at hvisits hindex
      rw [loop_succ, List.replicate_succ, ← hvisits]
      exact ⟨rfl, hindex⟩

/-- The state in which the block waits for its next count. -/
theorem visits_loop_block (s : CallStackManager) (pc : Addr) (k : Nat) :
    (s.run (loop pc k ++ [.block pc])).pending_ = true ∧
      (s.visits (loop pc k ++ [.block pc])).count
        (s.run (loop pc k ++ [.block pc])).index = k := by
  obtain ⟨hvisits, hindex⟩ := visits_loop s pc k
  rw [run_append, visits_append, hvisits]
  refine ⟨rfl, ?_⟩
  rw [show ((s.run (loop pc k)).run [.block pc]).index = _ from hindex]
  exact (List.append_nil (List.replicate k (s.visitBasicBlock pc).index)).symm ▸
    List.count_replicate_self

/-- After `2 ^ 16 + 8` visits of a block the count is back at 8. -/
theorem updateBitmap_wraps :
    ¬ ∀ es : List Event, ((new (fun _ => 0) 0).run es).pending_ = true →
      let s := (new (fun _ => 0) 0).run es
      (s.updateBitmap.isInteresting = true ↔
        Scheduled (((new (fun _ => 0) 0).visits es).count s.index)) := by
  intro h
  obtain ⟨hround, hcount⟩ := visits_loop_block (new (fun _ => 0) 0) 0 (2 ^ 16 + 8)
  have hrun := run_bitmap (new (fun _ => 0) 0) (loop 0 (2 ^ 16 + 8) ++ [.block 0])
    ((new (fun _ => 0) 0).run (loop 0 (2 ^ 16 + 8) ++ [.block 0])).index
  have hanswer := h _ hround
  simp only [] at hanswer
  rw [updateBitmap_isInteresting hround, hrun, hcount] at hanswer
  have hwrapped : Scheduled ((0 : BitVec 16) + BitVec.ofNat 16 (2 ^ 16 + 8)).toNat :=
    .inr ⟨0, by decide⟩
  have hnot : ¬ Scheduled (2 ^ 16 + 8) := by decide +kernel
  exact hnot (hanswer.mp hwrapped)

end CallStackManager

end Qsym
