import Mathlib.Data.Fintype.Prod
import Mathlib.Data.Set.Card
import Mathlib.Data.List.Sort
import Mathlib.Order.CompletePartialOrder
import Qsym.Coverage.Xxh32
import Qsym.Shadow.Memory

/-!
# Qsym.Coverage.AflTraceMap

`AflTraceMap`: the coverage maps that decide which branches are worth solving, and the
file that hands them on from one run to the next.

Between any two calls the file holds the maps of the memory (`importFile_run`), although
only some paths of the decision write it. Over all the runs that share the file, the maps
only grow, and an interesting branch costs a bit of them that was clear
(`isInterestingBranch_bounded`).
-/

namespace Qsym

/-- `kMapSize` -/
def kMapSize : Nat := 65536

/-- `CHAR_BIT` -/
def CHAR_BIT : Nat := 8

/-- One of the maps of `kMapSize` bytes. -/
abbrev TraceMap := Fin kMapSize → Byte

/-- The contents of the file at `path_`; `none` when it cannot be opened. -/
abbrev File := Option (List Byte)

/-- The index of an address or a hash in a map. -/
def TraceMap.index (x : Nat) : Fin kMapSize := ⟨x % kMapSize, Nat.mod_lt x (by decide)⟩

/-- What `IMG_FindByAddress` tells of a loaded image: `IMG_LowAddress` and `IMG_Id`. -/
structure Image where
  lowAddress : Addr
  id : BitVec 32

/-- The option `context_sensitive` and the images of the process; `none` for an address
without a valid image. -/
structure Tracer where
  context_sensitive : Bool
  image : Addr → Option Image

structure AflTraceMap where
  path_ : String
  prev_loc_ : Addr
  trace_map_ : TraceMap
  virgin_map_ : TraceMap
  context_map_ : TraceMap
  /-- A `std::set`: ascending and without repetitions. -/
  visited_ : List Addr

def isPowerOfTwoOrZero (x : Addr) : Bool :=
  x &&& (x - 1) == 0

/-- `hashPc`; an address without a valid image ends the process. -/
def Tracer.hashPc (T : Tracer) (pc : Addr) (taken : Bool) : Option Addr := do
  let img ← T.image pc
  let pc := pc - img.lowAddress
  let state := Xxh32.reset 0
  let state := Xxh32.update state (Xxh32.bytesOf pc)
  let state := Xxh32.update state (Xxh32.bytesOf img.id)
  let state := Xxh32.update state [if taken then 1 else 0]
  return (Xxh32.digest state).setWidth 64 % BitVec.ofNat 64 kMapSize

namespace AflTraceMap

/-- `setDefault`, on the trace map and the context map. -/
def setDefault : TraceMap × TraceMap :=
  (fun _ => 0, fun _ => 0)

/-- `ifs.read(map, kMapSize)`: the map and the rest of the stream, or a failed stream. -/
def read (bytes : List Byte) : Option (TraceMap × List Byte) :=
  if kMapSize ≤ bytes.length then some (fun i => bytes.getD i 0, bytes.drop kMapSize) else none

/-- `import(path)`: the trace map and the context map. A second read of a failed stream
fails too, and then both maps are reset. -/
def importFile : File → TraceMap × TraceMap
  | none => setDefault
  | some bytes =>
      match read bytes with
      | none => setDefault
      | some (trace, rest) =>
          match read rest with
          | none => setDefault
          | some (context, _) => (trace, context)

/-- The constructor, on the file found at `path`. -/
def new (path : String) (file : File) : AflTraceMap :=
  let maps := if path.isEmpty then setDefault else importFile file
  { path_ := path, prev_loc_ := 0, trace_map_ := maps.1, virgin_map_ := fun _ => 0,
    context_map_ := maps.2, visited_ := [] }

variable (s : AflTraceMap)

def getIndex (h : Addr) : Fin kMapSize :=
  TraceMap.index (s.prev_loc_ >>> 1 ^^^ h).toNat

/-- What one hash of `visited_` does to the context map and to `interesting`. -/
def visitContext (h : Addr) (found : TraceMap × Bool) (prev_h : Addr) : TraceMap × Bool :=
  let state := Xxh32.reset 0
  let state := Xxh32.update state (Xxh32.bytesOf prev_h)
  let state := Xxh32.update state (Xxh32.bytesOf h)
  let hash := (Xxh32.digest state).toNat % (kMapSize * CHAR_BIT)
  let idx := TraceMap.index (hash / CHAR_BIT)
  let mask := (1 : Byte) <<< (hash % CHAR_BIT)
  if found.1 idx &&& mask = 0 then
    (Function.update found.1 idx (found.1 idx ||| mask), true)
  else found

/-- `visited_.insert(h)` -/
def insertVisited (h : Addr) (visited : List Addr) : List Addr :=
  if h ∈ visited then visited else visited.orderedInsert (· ≤ ·) h

def isInterestingContext (T : Tracer) (h bits : Addr) : Bool × AflTraceMap :=
  if ¬ T.context_sensitive then (false, s)
  -- only care power of two
  else if ¬ isPowerOfTwoOrZero bits then (false, s)
  else
    let found := s.visited_.foldl (visitContext h) (s.context_map_, false)
    (found.2, { s with
      context_map_ := found.1
      visited_ := if bits = 0 then insertVisited h s.visited_ else s.visited_ })

/-- `commit`, on the file found at `path_`. -/
def commit (file : File) : File :=
  if s.path_.isEmpty then file
  else some (List.ofFn s.trace_map_ ++ List.ofFn s.context_map_)

/-- `trace_map_[idx] |= virgin_map_[idx]` -/
def traced (idx : Fin kMapSize) : AflTraceMap :=
  { s with trace_map_ :=
      Function.update s.trace_map_ idx (s.trace_map_ idx ||| s.virgin_map_ idx) }

/-- `virgin_map_[idx] += n` -/
def count (idx : Fin kMapSize) (n : Byte) : AflTraceMap :=
  { s with virgin_map_ := Function.update s.virgin_map_ idx (s.virgin_map_ idx + n) }

/-- `isInterestingBranch`: the answer, the maps and the file after it; `none` when
`hashPc` ends the process. -/
def isInterestingBranch (T : Tracer) (pc : Addr) (taken : Bool) (file : File) :
    Option (Bool × AflTraceMap × File) := do
  let h ← T.hashPc pc taken
  let idx := s.getIndex h
  let (new_context, s) := s.isInterestingContext T h ((s.virgin_map_ idx).setWidth 64)
  let s := s.count idx 1
  if s.virgin_map_ idx ||| s.trace_map_ idx ≠ s.trace_map_ idx then
    let inv_h ← T.hashPc pc (!taken)
    let inv_idx := s.getIndex inv_h
    let s := s.traced idx
    -- mark the inverse case, because it's already covered by current testcase
    let s := (s.count inv_idx 1).traced inv_idx
    let file := s.commit file
    let s := s.count inv_idx (-1)
    return (true, { s with prev_loc_ := h }, file)
  else if new_context then
    return (true, { s with prev_loc_ := h }, s.commit file)
  else
    return (false, { s with prev_loc_ := h }, file)

end AflTraceMap

/-! ### Runs -/

/-- A process and the file it shares with the ones after it. -/
structure Campaign where
  map : AflTraceMap
  file : File

namespace Campaign

/-- What happens to the maps: a call of the running process, or a new process. One that
ends within a call has left the maps and the file as they were before it. -/
inductive Event where
  | start
  | branch (pc : Addr) (taken : Bool)

/-- The first process. -/
def start (path : String) (file : File) : Campaign where
  map := .new path file
  file := file

/-- One event, and whether it was an interesting branch. -/
def step (T : Tracer) (w : Campaign) : Event → Option (Bool × Campaign)
  | .start => some (false, .start w.map.path_ w.file)
  | .branch pc taken => do
      let (interesting, map, file) ← w.map.isInterestingBranch T pc taken w.file
      return (interesting, { map, file })

/-- A run of events, and the answer to each. -/
def run (T : Tracer) : Campaign → List Event → Option (List Bool × Campaign)
  | w, [] => some ([], w)
  | w, e :: es => do
      let (interesting, w₁) ← w.step T e
      let (answers, w₂) ← run T w₁ es
      return (interesting :: answers, w₂)

end Campaign

/-! ### Bits -/

/-- A bit of a map. -/
abbrev Bit := Fin kMapSize × Fin 8

namespace TraceMap

/-- The bits that are set. -/
def bits (m : TraceMap) : Set Bit :=
  {b | (m b.1).getLsbD b.2 = true}

variable {m : TraceMap} {i : Fin kMapSize} {v : Byte}

theorem bits_subset_or (m : TraceMap) (i : Fin kMapSize) (v : Byte) :
    m.bits ⊆ TraceMap.bits (Function.update m i (m i ||| v)) := by
  intro b hb
  simp only [bits, Set.mem_ofPred_eq] at hb ⊢
  by_cases hi : b.1 = i
  · simp [← hi, hb]
  · simpa [hi] using hb

/-- Putting bits into a byte that lacks one of them sets a bit that was clear. -/
theorem bits_ssubset_or (h : m i ||| v ≠ m i) :
    m.bits ⊂ TraceMap.bits (Function.update m i (m i ||| v)) := by
  refine ⟨bits_subset_or m i v, fun hback => h (BitVec.eq_of_getLsbD_eq fun k hk => ?_)⟩
  have hbit : (i, ⟨k, hk⟩) ∈ TraceMap.bits (Function.update m i (m i ||| v)) →
      (i, ⟨k, hk⟩) ∈ m.bits :=
    fun hb => hback hb
  simp only [bits, Set.mem_ofPred_eq, Function.update_self, BitVec.getLsbD_or] at hbit
  cases hm : (m i).getLsbD k <;> simp_all

end TraceMap

/-- One of the maps before and after a step that tells whether it found a new bit. -/
def Grown (found : Bool) (m m' : TraceMap) : Prop :=
  if found then m.bits ⊂ m'.bits else m' = m

theorem Grown.subset {found : Bool} {m m' : TraceMap} (h : Grown found m m') :
    m.bits ⊆ m'.bits := by
  cases found with
  | false => exact (show m' = m from h) ▸ Set.Subset.rfl
  | true => exact (show m.bits ⊂ m'.bits from h).subset

namespace AflTraceMap

/-! ### What one call does -/

theorem visitContext_grown {m : TraceMap} {h : Addr} {found : TraceMap × Bool}
    (hfound : Grown found.2 m found.1) (prev_h : Addr) :
    Grown (visitContext h found prev_h).2 m (visitContext h found prev_h).1 := by
  unfold visitContext
  simp only []
  generalize (Xxh32.digest _).toNat % (kMapSize * CHAR_BIT) = hash
  generalize TraceMap.index (hash / CHAR_BIT) = idx
  split
  next hclear =>
    refine hfound.subset.trans_ssubset (TraceMap.bits_ssubset_or fun heq => ?_)
    -- the byte has none of the mask's bits, so it cannot have all of them
    have hlt : hash % CHAR_BIT < 8 := Nat.mod_lt _ (by decide)
    have hset : (found.1 idx).getLsbD (hash % CHAR_BIT) = true := by
      rw [← heq]
      simp [hlt]
    have hbit : (found.1 idx &&& (1 : Byte) <<< (hash % CHAR_BIT)).getLsbD (hash % CHAR_BIT) =
        true := by
      simp [hset, hlt]
    rw [hclear] at hbit
    simp at hbit
  next => exact hfound

theorem foldl_visitContext_grown {m : TraceMap} {h : Addr} (visited : List Addr)
    {found : TraceMap × Bool} (hfound : Grown found.2 m found.1) :
    Grown (visited.foldl (visitContext h) found).2 m (visited.foldl (visitContext h) found).1 := by
  induction visited generalizing found with
  | nil => exact hfound
  | cons prev_h rest ih => exact ih (visitContext_grown hfound prev_h)

/-- The context map grows exactly when the answer is yes; the other maps stay. -/
theorem isInterestingContext_grown (s : AflTraceMap) (T : Tracer) (h bits : Addr) :
    ∃ context visited, (s.isInterestingContext T h bits).2 =
        { s with context_map_ := context, visited_ := visited } ∧
      Grown (s.isInterestingContext T h bits).1 s.context_map_ context := by
  unfold isInterestingContext
  split
  next => exact ⟨s.context_map_, s.visited_, rfl, rfl⟩
  next =>
    split
    next => exact ⟨s.context_map_, s.visited_, rfl, rfl⟩
    next => exact ⟨_, _, rfl, foldl_visitContext_grown s.visited_ rfl⟩

theorem card_bits : Nat.card (Bool × Bit) = 2 * (kMapSize * CHAR_BIT) := by
  rw [Nat.card_prod, Nat.card_prod, Nat.card_eq_fintype_card, Nat.card_eq_fintype_card,
    Nat.card_eq_fintype_card, Fintype.card_bool, Fintype.card_fin, Fintype.card_fin, CHAR_BIT]

/-- The bits of the trace map (`true`) and of the context map (`false`) that are set. -/
def covered (s : AflTraceMap) : Set (Bool × Bit) :=
  {b | b.2 ∈ TraceMap.bits (if b.1 then s.trace_map_ else s.context_map_)}

theorem covered_subset {s s' : AflTraceMap} (ht : s.trace_map_.bits ⊆ s'.trace_map_.bits)
    (hc : s.context_map_.bits ⊆ s'.context_map_.bits) : s.covered ⊆ s'.covered := by
  rintro ⟨_ | _, b⟩ hb
  · exact hc hb
  · exact ht hb

theorem covered_ssubset {s s' : AflTraceMap} (ht : s.trace_map_.bits ⊆ s'.trace_map_.bits)
    (hc : s.context_map_.bits ⊆ s'.context_map_.bits)
    (h : s.trace_map_.bits ⊂ s'.trace_map_.bits ∨ s.context_map_.bits ⊂ s'.context_map_.bits) :
    s.covered ⊂ s'.covered := by
  refine ⟨covered_subset ht hc, fun hback => ?_⟩
  rcases h with h | h
  · exact h.2 fun b hb => hback (a := (true, b)) hb
  · exact h.2 fun b hb => hback (a := (false, b)) hb

/-- What a call of `isInterestingBranch` leaves behind when it answers `interesting`. -/
structure Answered (s : AflTraceMap) (h : Addr) (file : File) (interesting : Bool)
    (s' : AflTraceMap) (file' : File) : Prop where
  path : s'.path_ = s.path_
  virgin : s'.virgin_map_ = Function.update s.virgin_map_ (s.getIndex h)
    (s.virgin_map_ (s.getIndex h) + 1)
  no : interesting = false →
    s'.trace_map_ = s.trace_map_ ∧ s'.context_map_ = s.context_map_ ∧ file' = file
  yes : interesting = true → s.covered ⊂ s'.covered ∧ file' = s'.commit file

theorem bits_subset_traced (s : AflTraceMap) (idx : Fin kMapSize) :
    s.trace_map_.bits ⊆ (s.traced idx).trace_map_.bits :=
  TraceMap.bits_subset_or s.trace_map_ idx (s.virgin_map_ idx)

theorem bits_ssubset_traced {s : AflTraceMap} {idx : Fin kMapSize}
    (h : s.virgin_map_ idx ||| s.trace_map_ idx ≠ s.trace_map_ idx) :
    s.trace_map_.bits ⊂ (s.traced idx).trace_map_.bits :=
  TraceMap.bits_ssubset_or (by rwa [BitVec.or_comm])

/-- Counting an edge and taking the count back, also when the index is the one that was
counted before. -/
theorem count_restored (s : AflTraceMap) (idx : Fin kMapSize) :
    (((s.count idx 1).traced idx).count idx (-1)).virgin_map_ = s.virgin_map_ := by
  simp [count, traced, BitVec.add_assoc]

/-- The trace map after an edge with a new bit and its inverse. -/
theorem bits_ssubset_traced_traced {s : AflTraceMap} {idx : Fin kMapSize}
    (h : s.virgin_map_ idx ||| s.trace_map_ idx ≠ s.trace_map_ idx) (inv_idx : Fin kMapSize) :
    s.trace_map_.bits ⊂
      (((s.traced idx).count inv_idx 1).traced inv_idx).trace_map_.bits :=
  (bits_ssubset_traced h).trans_subset
    (bits_subset_traced ((s.traced idx).count inv_idx 1) inv_idx)

theorem isInterestingBranch_answered {T : Tracer} {s s' : AflTraceMap} {pc : Addr}
    {taken interesting : Bool} {file file' : File}
    (hr : s.isInterestingBranch T pc taken file = some (interesting, s', file')) :
    ∃ h, T.hashPc pc taken = some h ∧ s.Answered h file interesting s' file' := by
  unfold isInterestingBranch at hr
  cases hh : T.hashPc pc taken with
  | none => simp [hh] at hr
  | some h =>
      obtain ⟨context, visited, hs, hgrown⟩ := s.isInterestingContext_grown T h
        ((s.virgin_map_ (s.getIndex h)).setWidth 64)
      refine ⟨h, rfl, ?_⟩
      simp only [hh, Option.bind_eq_bind, Option.bind_some, hs] at hr
      split at hr
      next hnew =>
        cases hinv : T.hashPc pc !taken with
        | none => simp [hinv] at hr
        | some inv_h =>
            simp only [hinv, Option.bind_some, Option.pure_def, Option.some.injEq,
              Prod.mk.injEq] at hr
            obtain ⟨rfl, rfl, rfl⟩ := hr
            have hlt := bits_ssubset_traced_traced hnew
            exact ⟨rfl, count_restored _ _, nofun, fun _ =>
              ⟨covered_ssubset (hlt _).subset hgrown.subset (.inl (hlt _)), rfl⟩⟩
      next =>
        split at hr
        next hfound =>
          simp only [Option.pure_def, Option.some.injEq, Prod.mk.injEq] at hr
          obtain ⟨rfl, rfl, rfl⟩ := hr
          rw [hfound] at hgrown
          exact ⟨rfl, rfl, nofun, fun _ =>
            ⟨covered_ssubset Set.Subset.rfl hgrown.subset (.inr hgrown), rfl⟩⟩
        next hfound =>
          simp only [Option.pure_def, Option.some.injEq, Prod.mk.injEq] at hr
          obtain ⟨rfl, rfl, rfl⟩ := hr
          rw [Bool.not_eq_true] at hfound
          rw [hfound] at hgrown
          exact ⟨rfl, rfl, fun _ => ⟨rfl, hgrown, rfl⟩, nofun⟩

/-! ### The file -/

theorem read_ofFn_append (m : TraceMap) (rest : List Byte) :
    read (List.ofFn m ++ rest) = some (m, rest) := by
  have hlen : (List.ofFn m).length = kMapSize := List.length_ofFn
  have hmap (i : Fin kMapSize) : (List.ofFn m ++ rest).getD i 0 = m i := by
    have hi : i.val < (List.ofFn m).length := by rw [hlen]; exact i.isLt
    simp [List.getD_eq_getElem?_getD, List.getElem?_append_left hi]
  have hle : kMapSize ≤ (List.ofFn m ++ rest).length := by simp
  rw [read, if_pos hle, funext hmap, List.drop_left' hlen]

theorem importFile_of_read {bytes rest rest' : List Byte} {trace context : TraceMap}
    (ht : read bytes = some (trace, rest)) (hc : read rest = some (context, rest')) :
    importFile (some bytes) = (trace, context) := by
  simp only [importFile, ht, hc]

/-- What is committed is what is imported. -/
theorem importFile_commit {s : AflTraceMap} (hpath : s.path_ ≠ "") (file : File) :
    importFile (s.commit file) = (s.trace_map_, s.context_map_) := by
  have hcontext := read_ofFn_append s.context_map_ []
  rw [List.append_nil] at hcontext
  rw [commit, if_neg (by simpa using hpath)]
  exact importFile_of_read (read_ofFn_append s.trace_map_ _) hcontext

end AflTraceMap

namespace Campaign

open AflTraceMap

variable {T : Tracer} {w w' : Campaign} {found : Bool}

/-- The file holds the maps of the memory. -/
def Synced (w : Campaign) : Prop :=
  importFile w.file = (w.map.trace_map_, w.map.context_map_)

theorem synced_start {path : String} (hpath : path ≠ "") (file : File) :
    (start path file).Synced := by
  simp [Synced, start, new, hpath]

/-- What one event preserves, and what it adds. -/
theorem step_grown {e : Event} (hpath : w.map.path_ ≠ "") (hw : w.Synced)
    (h : w.step T e = some (found, w')) :
    w'.map.path_ = w.map.path_ ∧ w'.Synced ∧ w.map.covered ⊆ w'.map.covered ∧
      (found = true → w.map.covered ⊂ w'.map.covered) := by
  cases e with
  | start =>
      simp only [step, Option.some.injEq, Prod.mk.injEq] at h
      obtain ⟨rfl, rfl⟩ := h
      have hmaps : new w.map.path_ w.file =
          { w.map with prev_loc_ := 0, virgin_map_ := fun _ => 0, visited_ := [] } := by
        simp [new, hpath, show importFile w.file = _ from hw]
      refine ⟨rfl, synced_start hpath w.file, ?_, nofun⟩
      simp only [Campaign.start, hmaps]
      exact Set.Subset.rfl
  | branch pc taken =>
      simp only [step, Option.bind_eq_bind, Option.bind_eq_some_iff] at h
      obtain ⟨⟨interesting, map, file⟩, hr, heq⟩ := h
      simp only [Option.pure_def, Option.some.injEq, Prod.mk.injEq] at heq
      obtain ⟨rfl, rfl⟩ := heq
      obtain ⟨_, _, ha⟩ := isInterestingBranch_answered hr
      cases interesting with
      | false =>
          obtain ⟨ht, hc, rfl⟩ := ha.no rfl
          refine ⟨ha.path, ?_, covered_subset (by rw [ht]) (by rw [hc]), nofun⟩
          rw [Synced, ht, hc]
          exact hw
      | true =>
          obtain ⟨hlt, rfl⟩ := ha.yes rfl
          exact ⟨ha.path, importFile_commit (ha.path ▸ hpath) w.file, hlt.subset, fun _ => hlt⟩

theorem run_grown {es : List Event} {answers : List Bool} (hpath : w.map.path_ ≠ "")
    (hw : w.Synced) (h : w.run T es = some (answers, w')) :
    w'.map.path_ = w.map.path_ ∧ w'.Synced ∧ w.map.covered ⊆ w'.map.covered ∧
      answers.count true + w.map.covered.ncard ≤ w'.map.covered.ncard := by
  induction es generalizing w answers with
  | nil =>
      simp only [run, Option.some.injEq, Prod.mk.injEq] at h
      obtain ⟨rfl, rfl⟩ := h
      exact ⟨rfl, hw, Set.Subset.rfl, by simp⟩
  | cons e es ih =>
      simp only [run, Option.bind_eq_bind, Option.bind_eq_some_iff] at h
      obtain ⟨⟨found, w₁⟩, hstep, ⟨answers₂, w₂⟩, hrun, heq⟩ := h
      simp only [Option.pure_def, Option.some.injEq, Prod.mk.injEq] at heq
      obtain ⟨rfl, rfl⟩ := heq
      obtain ⟨hp₁, hw₁, hle₁, hlt₁⟩ := step_grown hpath hw hstep
      obtain ⟨hp₂, hw₂, hle₂, hcount⟩ := ih (hp₁ ▸ hpath) hw₁ hrun
      refine ⟨hp₂.trans hp₁, hw₂, hle₁.trans hle₂, ?_⟩
      have hle := Set.ncard_le_ncard hle₁ (Set.toFinite _)
      cases found with
      | false =>
          rw [List.count_cons_of_ne (by decide)]
          omega
      | true =>
          have hlt := Set.ncard_lt_ncard (hlt₁ rfl) (Set.toFinite _)
          simp only [List.count_cons_self]
          omega

/-- **The file equals the maps.** Between any two calls, importing the file gives the trace
map and the context map of the memory, which is what a later process starts from. -/
theorem importFile_run {path : String} (hpath : path ≠ "") (file : File) {es : List Event}
    {answers : List Bool} (h : (start path file).run T es = some (answers, w)) :
    importFile w.file = (w.map.trace_map_, w.map.context_map_) ∧
      (new path w.file).trace_map_ = w.map.trace_map_ ∧
      (new path w.file).context_map_ = w.map.context_map_ := by
  obtain ⟨-, hw, -⟩ := run_grown hpath (synced_start hpath file) h
  have hmaps : importFile w.file = _ := hw
  simp [new, hpath, hmaps]

/-- A program of one image. -/
def oneImage : Tracer where
  context_sensitive := true
  image _ := some { lowAddress := 0x400000, id := 1 }

/-- A loop of two rounds, in the second process on a file that is too short. -/
def loopTwice : List Event :=
  [.start, .branch 0x400010 true, .branch 0x400010 true]

theorem importFile_loopTwice :
    ∃ answers w, (start "bitmap" (some [1])).run oneImage loopTwice = some (answers, w) ∧
      importFile w.file = (w.map.trace_map_, w.map.context_map_) := by
  have hrun : ((start "bitmap" (some [1])).run oneImage loopTwice).isSome = true := by decide
  obtain ⟨⟨answers, w⟩, h⟩ := Option.isSome_iff_exists.1 hrun
  exact ⟨answers, w, h, (importFile_run (by decide) (some [1]) h).1⟩

/-- **Interest is monotone and bounded.** However many processes share the file: the maps
only grow, each interesting branch sets a bit that was clear, there are at most as many of
them as bits, and a call counts its own edge and nothing else. -/
theorem isInterestingBranch_bounded {path : String} (hpath : path ≠ "") (file : File)
    {es : List Event} {answers : List Bool}
    (h : (start path file).run T es = some (answers, w)) :
    (∀ es' answers' w', w.run T es' = some (answers', w') → w.map.covered ⊆ w'.map.covered) ∧
    (∀ pc taken found map' file',
      w.map.isInterestingBranch T pc taken w.file = some (found, map', file') →
        (found = true → ∃ b, b ∉ w.map.covered ∧ b ∈ map'.covered) ∧
        ∃ h, T.hashPc pc taken = some h ∧ map'.virgin_map_ = Function.update w.map.virgin_map_
          (w.map.getIndex h) (w.map.virgin_map_ (w.map.getIndex h) + 1)) ∧
    answers.count true ≤ 2 * (kMapSize * CHAR_BIT) := by
  obtain ⟨hp, hw, -, hcount⟩ := run_grown hpath (synced_start hpath file) h
  refine ⟨fun es' answers' w' h' => (run_grown (hp ▸ hpath) hw h').2.2.1,
    fun pc taken found map' file' hr => ?_, ?_⟩
  · obtain ⟨h, hh, ha⟩ := isInterestingBranch_answered hr
    refine ⟨fun hfound => ?_, h, hh, ha.virgin⟩
    obtain ⟨b, hb, hnot⟩ := Set.exists_of_ssubset (ha.yes hfound).1
    exact ⟨b, hnot, hb⟩
  · have hle : w.map.covered.ncard ≤ Nat.card (Bool × Bit) := Set.ncard_le_card _
    rw [card_bits] at hle
    exact (Nat.le_add_right _ _).trans (hcount.trans hle)

theorem loopTwice_bounded :
    ∃ w, (start "bitmap" (some [1])).run oneImage loopTwice =
        some ([false, true, true], w) ∧
      [false, true, true].count true ≤ 2 * (kMapSize * CHAR_BIT) := by
  have hrun : ((start "bitmap" (some [1])).run oneImage loopTwice).map Prod.fst =
      some [false, true, true] := by decide
  obtain ⟨⟨_, w⟩, h, rfl⟩ := Option.map_eq_some_iff.1 hrun
  exact ⟨w, h, (isInterestingBranch_bounded (by decide) (some [1]) h).2.2⟩

end Campaign

end Qsym
