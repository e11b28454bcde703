import Mathlib.Data.Finset.Prod
import Mathlib.Data.Finset.Sigma
import Mathlib.Algebra.BigOperators.Group.Finset.Sigma
import Mathlib.Data.Fintype.Defs
import Qsym.Coverage.AflTraceMap
import Qsym.Lattice.Accumulate

/-!
# Qsym.Coverage.Minimizer

`TestcaseMinimizer`: a test case is kept when its trace sets a bit that no test case with
the same kind of return code has set before.

The loop that compares the traces also merges them; `mergeBitmap_eq` says what it leaves
behind. Seen as a set of bits the minimizer accumulates a join
(`isInterestingTestcase_refines`), and the rules of `Qsym.Lattice.Accumulate` carry the
runs (`isInterestingTestcase_run`).
-/

namespace Qsym

/-- The bytes of a trace map, as a list. -/
abbrev TraceBitmap := List Byte

/-- The kinds of test cases that are told apart by their return codes. -/
inductive Outcome where
  | exited
  | crashed
  deriving DecidableEq

instance : Fintype Outcome where
  elems := {.exited, .crashed}
  complete c := by cases c <;> decide

/-- `returncode == 0` -/
def Outcome.of (returncode : Int) : Outcome :=
  if returncode = 0 then .exited else .crashed

/-- `my_bitmap`, and what the file `my_bitmap_file` holds. -/
structure KeptBitmap where
  myBitmap : TraceBitmap
  myBitmapFile : File

/-- `bitmap` and `crash_bitmap`, with their files. -/
abbrev TestcaseMinimizer := Outcome → KeptBitmap

/-- `write_bitmap_file` -/
def writeBitmapFile (bitmap : TraceBitmap) : File := some bitmap

/-- `initialize_bitmap`; a file of another size ends the process. -/
def initializeBitmap (file : File) (map_size : Nat) : Option TraceBitmap :=
  match file with
  | some bitmap => if bitmap.length = map_size then some bitmap else none
  | none => some (List.replicate map_size 0)

/-- One pass of the loop in `is_interesting_testcase`, on `interesting` and `my_bitmap`. -/
def mergeByte (bitmap : TraceBitmap) (st : Bool × TraceBitmap) (i : Nat) :
    Option (Bool × TraceBitmap) := do
  let old ← st.2[i]?
  let new := old ||| (← bitmap[i]?)
  if old ≠ new then return (true, st.2.set i new) else return st

/-- The loop; an index out of range raises. -/
def mergeBitmap (my_bitmap bitmap : TraceBitmap) : Option (Bool × TraceBitmap) :=
  (List.range bitmap.length).foldlM (mergeByte bitmap) (false, my_bitmap)

namespace TestcaseMinimizer

/-- The constructor, on the files found in `out_dir`. -/
def new (files : Outcome → File) (map_size : Nat) : Option TestcaseMinimizer := do
  let bitmap ← initializeBitmap (files .exited) map_size
  let crash_bitmap ← initializeBitmap (files .crashed) map_size
  return fun
    | .exited => ⟨bitmap, files .exited⟩
    | .crashed => ⟨crash_bitmap, files .crashed⟩

/-- `is_interesting_testcase` -/
def isInterestingTestcase (m : TestcaseMinimizer) (bitmap : TraceBitmap) (returncode : Int) :
    Option (Bool × TestcaseMinimizer) := do
  let kept := m (.of returncode)
  let (interesting, my_bitmap) ← mergeBitmap kept.myBitmap bitmap
  let file := if interesting then writeBitmapFile my_bitmap else kept.myBitmapFile
  return (interesting, Function.update m (.of returncode) ⟨my_bitmap, file⟩)

/-- A trace and the return code it came with. -/
abbrev Submission := TraceBitmap × Int

/-- A sequence of submissions, and the answer to each. -/
def run : TestcaseMinimizer → List Submission → Option (List Bool × TestcaseMinimizer)
  | m, [] => some ([], m)
  | m, x :: xs => do
      let (interesting, m₁) ← m.isInterestingTestcase x.1 x.2
      let (answers, m₂) ← m₁.run xs
      return (interesting :: answers, m₂)

end TestcaseMinimizer

namespace TraceBitmap

/-! ### The bits of a bitmap -/

/-- The bits that are set, as positions of a byte and of a bit within it. -/
def bits (m : TraceBitmap) : Finset (Nat × Nat) :=
  {p ∈ Finset.range m.length ×ˢ Finset.range 8 | (m.getD p.1 0).getLsbD p.2}

/-- The bitwise OR with a bitmap that may be shorter. -/
def orWith (m bitmap : TraceBitmap) : TraceBitmap :=
  m.mapIdx fun i b => b ||| bitmap.getD i 0

/-- What a file holds; zeros if it is absent. -/
def ofFile (map_size : Nat) (file : File) : TraceBitmap :=
  file.getD (List.replicate map_size 0)

/-- The bitwise OR with all of the given bitmaps. -/
def orAll (m : TraceBitmap) (bitmaps : List TraceBitmap) : TraceBitmap :=
  m.mapIdx fun i b => bitmaps.foldl (fun b bitmap => b ||| bitmap.getD i 0) b

variable {m bitmap : TraceBitmap}

@[simp] theorem mem_bits {p : Nat × Nat} : p ∈ m.bits ↔ (m.getD p.1 0).getLsbD p.2 = true := by
  simp only [bits, Finset.mem_filter, Finset.mem_product, Finset.mem_range, and_iff_right_iff_imp]
  intro hp
  constructor
  · by_contra hlen
    simp [List.getD_eq_getElem?_getD, List.getElem?_eq_none (Nat.not_lt.mp hlen)] at hp
  · exact BitVec.lt_of_getLsbD hp

theorem card_bits_le (m : TraceBitmap) : m.bits.card ≤ m.length * 8 := by
  calc m.bits.card
      ≤ (Finset.range m.length ×ˢ Finset.range 8).card := Finset.card_filter_le _ _
    _ = m.length * 8 := by simp

@[simp] theorem length_orWith : (m.orWith bitmap).length = m.length := by
  simp [orWith]

@[simp] theorem orWith_nil (m : TraceBitmap) : m.orWith [] = m :=
  List.ext_getElem length_orWith fun i _ _ => by simp [orWith]

theorem getD_orWith (h : bitmap.length ≤ m.length) (i : Nat) :
    (m.orWith bitmap).getD i 0 = m.getD i 0 ||| bitmap.getD i 0 := by
  by_cases hi : i < m.length
  · simp [orWith, hi]
  · have hbitmap : bitmap.length ≤ i := by omega
    simp [orWith, hi, hbitmap]

theorem bits_orWith (h : bitmap.length ≤ m.length) :
    (m.orWith bitmap).bits = m.bits ∪ bitmap.bits := by
  ext p
  simp only [mem_bits, getD_orWith h, BitVec.getLsbD_or, Bool.or_eq_true, Finset.mem_union]

/-- A bitmap whose bits are set already changes nothing. -/
theorem orWith_eq_self_iff (h : bitmap.length ≤ m.length) :
    m.orWith bitmap = m ↔ bitmap.bits ⊆ m.bits := by
  constructor
  · intro heq
    rw [← Finset.union_eq_left, ← bits_orWith h, heq]
  · intro hsub
    refine List.ext_getElem length_orWith fun i hi hi' => BitVec.eq_of_getLsbD_eq fun j hj => ?_
    have hbit : (bitmap.getD i 0).getLsbD j = true → (m.getD i 0).getLsbD j = true := by
      simpa using @hsub (i, j)
    have hget := congrArg (·.getLsbD j) (getD_orWith h i)
    simp only [List.getD_eq_getElem?_getD, List.getElem?_eq_getElem hi,
      List.getElem?_eq_getElem hi', Option.getD_some, BitVec.getLsbD_or] at hget hbit ⊢
    rw [hget]
    cases hm : m[i].getLsbD j
    · simpa [hm] using hbit
    · rfl

@[simp] theorem orAll_nil (m : TraceBitmap) : m.orAll [] = m :=
  List.ext_getElem (by simp [orAll]) fun i _ _ => by simp [orAll]

theorem orAll_cons (m bitmap : TraceBitmap) (bitmaps : List TraceBitmap) :
    m.orAll (bitmap :: bitmaps) = (m.orWith bitmap).orAll bitmaps :=
  List.ext_getElem (by simp [orAll, orWith]) fun i _ _ => by simp [orAll, orWith]

/-- Their order does not matter. -/
theorem orAll_perm (m : TraceBitmap) {bitmaps bitmaps' : List TraceBitmap}
    (h : bitmaps.Perm bitmaps') : m.orAll bitmaps = m.orAll bitmaps' := by
  unfold orAll
  congr 1
  funext i b
  refine h.foldl_eq' (fun x _ y _ z => ?_) b
  rw [BitVec.or_assoc, BitVec.or_comm (x.getD i 0), BitVec.or_assoc]

end TraceBitmap

/-! ### What the loop leaves behind -/

open TraceBitmap

section Loop

variable {m bitmap : TraceBitmap} {n : Nat}

/-- The byte that a pass finds has not been merged yet. -/
theorem orWith_take_getElem? (h : bitmap.length ≤ m.length) (hn : n < bitmap.length) :
    (m.orWith (bitmap.take n))[n]? = m[n]? := by
  have hm : n < m.length := by omega
  simp [orWith, hm]

/-- Merging one more byte. -/
theorem set_orWith_take {old b : Byte} (hold : m[n]? = some old) (hb : bitmap[n]? = some b) :
    (m.orWith (bitmap.take n)).set n (old ||| b) = m.orWith (bitmap.take (n + 1)) := by
  obtain ⟨hm, rfl⟩ := List.getElem?_eq_some_iff.mp hold
  obtain ⟨hn, rfl⟩ := List.getElem?_eq_some_iff.mp hb
  refine List.ext_getElem (by simp) fun i hi hi' => ?_
  rw [List.getElem_set]
  split
  next heq =>
    subst heq
    simp [orWith, hn]
  next hne =>
    have htake : (bitmap.take n)[i]? = (bitmap.take (n + 1))[i]? := by
      rw [List.getElem?_take, List.getElem?_take]
      by_cases hlt : i < n
      · rw [if_pos hlt, if_pos (by omega)]
      · rw [if_neg hlt, if_neg (by omega)]
    simp only [orWith, List.getElem_mapIdx, List.getD_eq_getElem?_getD, htake]

theorem mergeByte_orWith_take (h : bitmap.length ≤ m.length) (hn : n < bitmap.length) :
    mergeByte bitmap (decide (m.orWith (bitmap.take n) ≠ m), m.orWith (bitmap.take n)) n =
      some (decide (m.orWith (bitmap.take (n + 1)) ≠ m), m.orWith (bitmap.take (n + 1))) := by
  have hm : n < m.length := by omega
  have hold : m[n]? = some m[n] := List.getElem?_eq_getElem hm
  have hb : bitmap[n]? = some bitmap[n] := List.getElem?_eq_getElem hn
  have hset := set_orWith_take hold hb
  simp only [mergeByte, orWith_take_getElem? h hn, hold, hb, Option.bind_eq_bind, Option.bind_some,
    hset]
  split
  next hnew =>
    -- the byte differs from the one before the loop
    have hne : m.orWith (bitmap.take (n + 1)) ≠ m := by
      intro heq
      have hbyte : (m.orWith (bitmap.take (n + 1)))[n]? = some (m[n] ||| bitmap[n]) := by
        rw [← hset, List.getElem?_set_self (by simpa using hm)]
      rw [heq, hold, Option.some.injEq] at hbyte
      exact hnew hbyte
    simp [hne]
  next hsame =>
    rw [not_not] at hsame
    have heq : m.orWith (bitmap.take (n + 1)) = m.orWith (bitmap.take n) := by
      have hlen : n < (m.orWith (bitmap.take n)).length := by simpa using hm
      have hget : (m.orWith (bitmap.take n))[n] = m[n] := by
        rw [← Option.some_inj, ← List.getElem?_eq_getElem hlen, orWith_take_getElem? h hn, hold]
      rw [← hset, ← hsame, ← hget, List.set_getElem_self]
    simp [heq]

/-- The loop merges the bitmaps and tells whether that changed a byte. -/
theorem mergeBitmap_eq (h : bitmap.length ≤ m.length) :
    mergeBitmap m bitmap = some (decide (m.orWith bitmap ≠ m), m.orWith bitmap) := by
  have hloop (n : Nat) (hn : n ≤ bitmap.length) :
      (List.range n).foldlM (mergeByte bitmap) (false, m) =
        some (decide (m.orWith (bitmap.take n) ≠ m), m.orWith (bitmap.take n)) := by
    induction n with
    | zero => simp
    | succ n ih =>
        rw [List.range_succ, List.foldlM_append, ih (by omega), Option.bind_eq_bind,
          Option.bind_some, List.foldlM_cons, mergeByte_orWith_take h (by omega)]
        rfl
  rw [mergeBitmap, hloop bitmap.length le_rfl, List.take_length]

end Loop

namespace TestcaseMinimizer

/-! ### The state over a run -/

/-- The bitmaps have the size of the map and the files hold them. -/
structure Synced (map_size : Nat) (m : TestcaseMinimizer) : Prop where
  length (c : Outcome) : (m c).myBitmap.length = map_size
  file (c : Outcome) : ofFile map_size (m c).myBitmapFile = (m c).myBitmap

/-- The bits that are set in the two bitmaps. -/
def covered (m : TestcaseMinimizer) : Finset (Σ _ : Outcome, Nat × Nat) :=
  Finset.univ.sigma fun c => (m c).myBitmap.bits

/-- The bits that a submission sets in the bitmap of its class. -/
def offered (x : Submission) : Finset (Σ _ : Outcome, Nat × Nat) :=
  ({.of x.2} : Finset Outcome).sigma fun _ => x.1.bits

/-- The bitmaps that were submitted to a class. -/
def submittedTo (c : Outcome) (xs : List Submission) : List TraceBitmap :=
  (xs.filter fun x => Outcome.of x.2 = c).map Prod.fst

variable {m : TestcaseMinimizer} {map_size : Nat} {bitmap : TraceBitmap} {returncode : Int}
  {files : Outcome → File}

theorem initializeBitmap_spec {file : File} (h : initializeBitmap file map_size = some bitmap) :
    bitmap.length = map_size ∧ ofFile map_size file = bitmap := by
  unfold initializeBitmap at h
  cases file with
  | none =>
      cases h
      exact ⟨List.length_replicate, rfl⟩
  | some bytes =>
      simp only [Option.ite_none_right_eq_some, Option.some.injEq] at h
      obtain ⟨hlen, rfl⟩ := h
      exact ⟨hlen, rfl⟩

theorem new_synced (h : new files map_size = some m) :
    m.Synced map_size ∧ ∀ c, (m c).myBitmapFile = files c := by
  simp only [new, Option.bind_eq_bind, Option.bind_eq_some_iff, Option.pure_def,
    Option.some.injEq] at h
  obtain ⟨bitmap, hbitmap, crash_bitmap, hcrash, rfl⟩ := h
  have hexited := initializeBitmap_spec hbitmap
  have hcrashed := initializeBitmap_spec hcrash
  refine ⟨⟨?length, ?file⟩, ?files⟩ <;> rintro (_ | _)
  case length.exited => exact hexited.1
  case length.crashed => exact hcrashed.1
  case file.exited => exact hexited.2
  case file.crashed => exact hcrashed.2
  all_goals rfl

/-- What a submission leaves behind when it is answered by `interesting`. -/
structure Submitted (m : TestcaseMinimizer) (map_size : Nat) (x : Submission) (interesting : Bool)
    (m' : TestcaseMinimizer) : Prop where
  synced : m'.Synced map_size
  answer : interesting = !decide (offered x ≤ m.covered)
  own : (m' (.of x.2)).myBitmap = (m (.of x.2)).myBitmap.orWith x.1
  other (c : Outcome) : c ≠ .of x.2 → m' c = m c

theorem offered_le_covered_iff {x : Submission} :
    offered x ≤ m.covered ↔ x.1.bits ⊆ (m (.of x.2)).myBitmap.bits := by
  constructor
  · intro h p hp
    have hmem := h (show ⟨.of x.2, p⟩ ∈ offered x by simpa [offered] using hp)
    simpa [covered] using hmem
  · rintro h ⟨c, p⟩ hp
    simp only [offered, Finset.mem_sigma, Finset.mem_singleton] at hp
    obtain ⟨rfl, hp⟩ := hp
    simpa [covered] using h hp

theorem isInterestingTestcase_eq (hlen : bitmap.length ≤ (m (.of returncode)).myBitmap.length) :
    m.isInterestingTestcase bitmap returncode =
      let kept := m (.of returncode)
      let my_bitmap := kept.myBitmap.orWith bitmap
      let interesting := decide (my_bitmap ≠ kept.myBitmap)
      some (interesting, Function.update m (.of returncode)
        ⟨my_bitmap, if interesting then some my_bitmap else kept.myBitmapFile⟩) := by
  simp only [isInterestingTestcase, mergeBitmap_eq hlen, Option.bind_eq_bind, Option.bind_some,
    Option.pure_def, writeBitmapFile]

theorem isInterestingTestcase_submitted (hm : m.Synced map_size)
    (hlen : bitmap.length ≤ map_size) (returncode : Int) :
    ∃ interesting m', m.isInterestingTestcase bitmap returncode = some (interesting, m') ∧
      m.Submitted map_size (bitmap, returncode) interesting m' := by
  rw [← hm.length (.of returncode)] at hlen
  refine ⟨_, _, isInterestingTestcase_eq hlen, ?_⟩
  constructor
  case synced =>
    constructor
    case length =>
      intro c
      by_cases hc : c = .of returncode
      · subst hc
        simp [hm.length]
      · simp [hc, hm.length]
    case file =>
      intro c
      by_cases hc : c = .of returncode
      · subst hc
        rw [Function.update_self]
        split
        next => rfl
        next hsame =>
          -- nothing is written, and nothing has changed
          rw [decide_eq_true_eq, not_not] at hsame
          rw [hm.file, hsame]
      · have hfile := hm.file c
        simpa [hc] using hfile
  case answer =>
    rw [← decide_not, decide_eq_decide, offered_le_covered_iff, ← orWith_eq_self_iff hlen]
  case own => simp
  case other =>
    intro c hc
    simp [hc]

theorem Submitted.covered_eq {m m' : TestcaseMinimizer} {x : Submission} {interesting : Bool}
    (h : m.Submitted map_size x interesting m')
    (hlen : x.1.length ≤ (m (.of x.2)).myBitmap.length) :
    m'.covered = m.covered ⊔ offered x := by
  ext ⟨c, p⟩
  simp only [covered, offered, Finset.sup_eq_union, Finset.mem_union, Finset.mem_sigma,
    Finset.mem_univ, true_and, Finset.mem_singleton]
  by_cases hc : c = .of x.2
  · subst hc
    rw [h.own, bits_orWith hlen, Finset.mem_union]
    simp
  · simp [h.other c hc, hc]

theorem Submitted.myBitmap_eq {m m' : TestcaseMinimizer} {x : Submission} {interesting : Bool}
    (h : m.Submitted map_size x interesting m') (c : Outcome) (xs : List Submission) :
    (m' c).myBitmap.orAll (submittedTo c xs) = (m c).myBitmap.orAll (submittedTo c (x :: xs)) := by
  by_cases hc : c = .of x.2
  · subst hc
    simp [submittedTo, orAll_cons, h.own]
  · simp [submittedTo, h.other c hc, Ne.symm hc]

/-- What a run leaves behind: a join that has been accumulated, and the news on the way. -/
theorem run_spec (hm : m.Synced map_size) {xs : List Submission}
    (hxs : ∀ x ∈ xs, x.1.length ≤ map_size) :
    ∃ m', m.run xs = some (Accumulate.news m.covered (xs.map offered), m') ∧
      m'.Synced map_size ∧
      m'.covered = Accumulate.joined m.covered (xs.map offered) ∧
      ∀ c, (m' c).myBitmap = (m c).myBitmap.orAll (submittedTo c xs) := by
  induction xs generalizing m with
  | nil =>
      refine ⟨m, rfl, hm, rfl, fun c => ?_⟩
      simp [submittedTo]
  | cons x xs ih =>
      have hlen : x.1.length ≤ map_size := hxs x List.mem_cons_self
      obtain ⟨interesting, m₁, hstep, hsub⟩ := isInterestingTestcase_submitted hm hlen x.2
      obtain ⟨m₂, hrun, hsynced, hcovered, hmaps⟩ :=
        ih hsub.synced fun y hy => hxs y (List.mem_cons_of_mem x hy)
      rw [hsub.covered_eq (by rwa [hm.length])] at hrun hcovered
      refine ⟨m₂, ?_, hsynced, hcovered, fun c => ?_⟩
      · simp only [run, hstep, Option.bind_eq_bind, Option.bind_some, hrun, hsub.answer]
        rfl
      · rw [hmaps, hsub.myBitmap_eq]

theorem card_covered_le (hm : m.Synced map_size) : m.covered.card ≤ 2 * (map_size * 8) := by
  have hclass (c : Outcome) : (m c).myBitmap.bits.card ≤ map_size * 8 := by
    rw [← hm.length c]
    exact card_bits_le (m c).myBitmap
  calc m.covered.card
      = ∑ c, (m c).myBitmap.bits.card := Finset.card_sigma _ _
    _ = (m .exited).myBitmap.bits.card + (m .crashed).myBitmap.bits.card :=
      Finset.sum_pair nofun
    _ ≤ map_size * 8 + map_size * 8 := Nat.add_le_add (hclass .exited) (hclass .crashed)
    _ = 2 * (map_size * 8) := (Nat.two_mul _).symm

/-- Over any run of the minimizer each bitmap is the bitwise OR of what it was at the start
and of the traces of its class, in whatever order they came, and its file holds it. A call
accepts a trace that sets a bit which is not set yet, never one that was submitted before,
and leaves the other class alone. -/
theorem isInterestingTestcase_run {map_size : Nat} {files : Outcome → File}
    {m : TestcaseMinimizer} (hnew : new files map_size = some m) {xs : List Submission}
    (hxs : ∀ x ∈ xs, x.1.length ≤ map_size) :
    ∃ answers m', m.run xs = some (answers, m') ∧
      answers.length = xs.length ∧
      (∀ c, (m' c).myBitmap = (ofFile map_size (files c)).orAll (submittedTo c xs)) ∧
      (∀ c, ofFile map_size (m' c).myBitmapFile = (m' c).myBitmap) ∧
      (∀ ys, ys.Perm xs → ∃ answers' m'', m.run ys = some (answers', m'') ∧
        ∀ c, (m'' c).myBitmap = (m' c).myBitmap) ∧
      answers.count true ≤ 2 * (map_size * 8) ∧
      ∀ bitmap returncode, bitmap.length ≤ map_size →
        ∃ interesting m'', m'.isInterestingTestcase bitmap returncode = some (interesting, m'') ∧
          (interesting = true ↔
            ∃ i j, (bitmap.getD i 0).getLsbD j = true ∧
              ((m' (.of returncode)).myBitmap.getD i 0).getLsbD j = false) ∧
          (∀ c, c ≠ .of returncode → m'' c = m' c) ∧
          (bitmap ∈ submittedTo (.of returncode) xs → interesting = false) := by
  obtain ⟨hm, hfiles⟩ := new_synced hnew
  obtain ⟨m', hrun, hsynced, hcovered, hmaps⟩ := run_spec hm hxs
  refine ⟨_, m', hrun, by simp, fun c => ?start, hsynced.file, fun ys hys => ?order, ?accepted,
    fun bitmap returncode hlen => ?call⟩
  case start => rw [hmaps, ← hm.file, hfiles]
  case order =>
    obtain ⟨m'', hrun', -, -, hmaps'⟩ := run_spec hm fun y hy => hxs y (hys.mem_iff.mp hy)
    refine ⟨_, m'', hrun', fun c => ?_⟩
    have hperm : (submittedTo c ys).Perm (submittedTo c xs) := (hys.filter _).map _
    rw [hmaps', hmaps, orAll_perm _ hperm]
  case accepted =>
    have hcount := Accumulate.count_news_add_le Finset.card_strictMono m.covered (xs.map offered)
    rw [← hcovered] at hcount
    have hcard := card_covered_le hsynced
    omega
  case call =>
    obtain ⟨interesting, m'', hcall, hsub⟩ :=
      isInterestingTestcase_submitted hsynced hlen returncode
    have hanswer := hsub.answer
    refine ⟨interesting, m'', hcall, ?_, hsub.other, fun hmem => ?_⟩
    · rw [hanswer, Bool.not_eq_true', decide_eq_false_iff_not, offered_le_covered_iff,
        Finset.not_subset]
      simp
    · -- it is below the join ever since it was submitted
      obtain ⟨x, hx, rfl⟩ := List.mem_map.mp hmem
      rw [List.mem_filter, decide_eq_true_eq] at hx
      have hle : offered x ≤ m'.covered := by
        rw [hcovered]
        exact Accumulate.le_joined_of_mem (List.mem_map_of_mem hx.1)
      have hsame : offered (x.1, returncode) = offered x := by
        simp only [offered, hx.2]
      simp [hanswer, hsame, hle]

/-- A map of two bytes whose first bit the test cases of earlier processes have set. -/
theorem isInterestingTestcase_run_two :
    ∃ m answers m', new (Outcome.rec (some [1, 0]) none) 2 = some m ∧
      m.run [([3], 0), ([0, 1], 139), ([2, 0], 0)] = some (answers, m') ∧
      (m' .exited).myBitmap = [3, 0] ∧ (m' .crashed).myBitmap = [0, 1] ∧
      answers.count true ≤ 32 := by
  obtain ⟨m, hm⟩ : ∃ m, new (Outcome.rec (some [1, 0]) none) 2 = some m := ⟨_, rfl⟩
  have hxs : ∀ x ∈ ([([3], 0), ([0, 1], 139), ([2, 0], 0)] : List Submission), x.1.length ≤ 2 := by
    decide
  obtain ⟨answers, m', hrun, -, hmaps, -, -, hcount, -⟩ := isInterestingTestcase_run hm hxs
  exact ⟨m, answers, m', hm, hrun, (hmaps .exited).trans (by decide),
    (hmaps .crashed).trans (by decide), hcount⟩

end TestcaseMinimizer

end Qsym
