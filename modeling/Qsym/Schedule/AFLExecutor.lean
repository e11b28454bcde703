import Mathlib.Algebra.Order.Ring.Int
import Mathlib.Data.Bool.Basic
import Mathlib.Data.Char
import Mathlib.Data.Finset.Card
import Mathlib.Data.List.Infix
import Mathlib.Data.List.Lex
import Mathlib.Data.List.Sort
import Mathlib.Data.Prod.Lex
import Qsym.Schedule.History

/-!
# Qsym.Schedule.AFLExecutor

`AFLExecutor`: the loop that takes the files of the AFL queue one after another.

What the loop does to its state is a list of updates, in the order in which the code makes
them, and the process may end after any of them: then it exports the state, and the next
process imports it. `Executor.Allows` is the schedule itself, without the loop; every run
of the loop keeps to it (`run_admissible`), and the facts about the schedule hold of any
history that does (`run_scheduled`).

A file is recorded in `processed` after it has been run. A process that ends within the run
leaves a file behind that is not recorded, and the next one takes it again.
-/

namespace Qsym

namespace AFLExecutor

/-- `DEFAULT_TIMEOUT` -/
def defaultTimeout : Nat := 90

/-- `MAX_TIMEOUT` -/
def maxTimeout : Nat := 10 * 60

/-- `MIN_HANG_FILES` -/
def minHangFiles : Nat := 30

/-- A path, as a Python string. -/
abbrev Path := List Char

/-- An entry of the queue's directory. -/
structure QueueEntry where
  path : Path
  isfile : Bool
  size : Nat
  deriving DecidableEq

/-- `get_score` -/
def getScore (testcase : QueueEntry) : Bool ×ₗ Bool ×ₗ Int ×ₗ Path :=
  -- new coverage is the best, though seed files are not marked with "+cov"
  let score1 := decide ("+cov".toList <:+ testcase.path)
  let score2 := decide ("orig:".toList <:+: testcase.path)
  -- smaller size is better
  let score3 := -(testcase.size : Int)
  -- the name contains the id, so a later one is chosen earlier
  let score4 := testcase.path
  toLex (score1, toLex (score2, toLex (score3, score4)))

/-- `testcase_compare` -/
def testcaseCompare (a b : QueueEntry) : Int :=
  if getScore b < getScore a then 1 else -1

end AFLExecutor

open AFLExecutor

structure AFLExecutorState where
  hang : Finset Path
  processed : Finset Path
  timeout : Nat
  done : Finset Path
  index : Nat

namespace AFLExecutorState

/-- `__init__` -/
def new : AFLExecutorState where
  hang := ∅
  processed := ∅
  timeout := defaultTimeout
  done := ∅
  index := 0

/-- `import_state`, from what `metadata` holds. -/
def importState (metadata : Option AFLExecutorState) : AFLExecutorState :=
  metadata.getD new

variable (s : AFLExecutorState)

/-- `export_state` -/
def exportState : Option AFLExecutorState := some s

def clear : AFLExecutorState :=
  { s with hang := ∅, processed := ∅ }

def tick : Nat × AFLExecutorState :=
  (s.index, { s with index := s.index + 1 })

/-- `sync_files`, on what the queue's directory lists. -/
def syncFiles (queue : List QueueEntry) : List Path :=
  let files := (queue.filter (·.isfile)).dedup
  let files := files.filter fun f => f.path ∉ s.done ∧ f.path ∉ s.processed
  (files.insertionSort fun a b => testcaseCompare b a = -1).map (·.path)

end AFLExecutorState

namespace AFLExecutor

/-- What the executor does to its state. -/
inductive Update where
  /-- The call of `run_file`. -/
  | select (fp : Path)
  /-- `hang.add(fp)` -/
  | hang (fp : Path)
  /-- `done.add(fp)` -/
  | done (fp : Path)
  /-- `processed.add(fp)` -/
  | processed (fp : Path)
  /-- A test case gets its index. -/
  | tick
  | timeout (t : Nat)
  | clear
  /-- The process ends, and another one starts. -/
  | restart
  deriving DecidableEq

/-- `handle_by_return_code` -/
def handleByReturnCode (retcode : Int) (fp : Path) : List Update :=
  if retcode = 124 ∨ retcode = -9 then [.hang fp] else [.done fp]

/-- `run_file`, on the return code and on what the minimizer says of the test cases. -/
def runFile (fp : Path) (retcode : Int) (testcases : List Bool) : List Update :=
  .select fp :: (handleByReturnCode retcode fp ++ .processed fp ::
    (testcases.filter id).map fun _ => .tick)

end AFLExecutor

namespace AFLExecutorState

variable (s : AFLExecutorState)

def increaseTimeout : List Update :=
  -- hitting the maximum goes back to the default, not to slow down fuzzing
  [.timeout (if s.timeout < maxTimeout then s.timeout * 2 else defaultTimeout), .clear]

def handleEmptyFiles : List Update :=
  if minHangFiles < s.hang.card then s.increaseTimeout else []

end AFLExecutorState

namespace AFLExecutor

/-- What one pass of the loop meets: the queue's directory, the return code, the answers of
the minimizer, and after how many updates the process ends if it ends in this pass. -/
structure Pass where
  queue : List QueueEntry
  retcode : Int
  testcases : List Bool
  ended : Option Nat

end AFLExecutor

namespace AFLExecutorState

/-- The body of the loop in `run`. -/
def loopBody (s : AFLExecutorState) (p : Pass) : List Update :=
  match s.syncFiles p.queue with
  | [] => s.handleEmptyFiles
  | fp :: _ => runFile fp p.retcode p.testcases

/-- What a pass does when the process ends in it, or does not. -/
def pass (s : AFLExecutorState) (p : Pass) : List Update :=
  match p.ended with
  | none => s.loopBody p
  | some n => (s.loopBody p).take n ++ [.restart]

end AFLExecutorState

/-- The state, and the file that `run_file` is at and has not recorded yet. -/
structure Executor where
  state : AFLExecutorState
  pending : Option Path

namespace Executor

/-- The first process. -/
def start : Executor where
  state := .importState none
  pending := none

def apply (e : Executor) : Update → Executor
  | .select fp => { e with pending := some fp }
  | .hang fp => { e with state.hang := insert fp e.state.hang }
  | .done fp => { e with state.done := insert fp e.state.done }
  | .processed fp => ⟨{ e.state with processed := insert fp e.state.processed }, none⟩
  | .tick => { e with state := e.state.tick.2 }
  | .timeout t => { e with state.timeout := t }
  | .clear => { e with state := e.state.clear }
  | .restart => ⟨.importState e.state.exportState, none⟩

/-- The state after a history. -/
abbrev after (e : Executor) (us : List Update) : Executor :=
  History.replay apply e us

/-- The history of a run of the loop. -/
def run : Executor → List Pass → List Update
  | _, [] => []
  | e, p :: ps =>
      let us := e.state.pass p
      us ++ run (e.after us) ps

/-- The indices that the test cases get in a history. -/
def saved : Executor → List Update → List Nat
  | _, [] => []
  | e, .tick :: us => e.state.tick.1 :: saved (e.apply .tick) us
  | e, u :: us => saved (e.apply u) us

/-! ### The schedule -/

/-- What the schedule asks of an update: a file is taken that is neither done nor processed,
it is recorded only once it is done or hung, and nothing is cleared while it runs. -/
def Allows (e : Executor) : Update → Prop
  | .select fp => e.pending = none ∧ fp ∉ e.state.done ∧ fp ∉ e.state.processed
  | .processed fp => e.pending = some fp ∧ (fp ∈ e.state.done ∨ fp ∈ e.state.hang)
  | .clear => e.pending = none
  | _ => True

/-- A history that keeps to the schedule. -/
abbrev Admissible (e : Executor) (us : List Update) : Prop :=
  History.Admissible apply Allows e us

variable {e : Executor} {us vs : List Update} {fp : Path}

/-- Nothing is taken out of `done`. -/
theorem done_subset_after (e : Executor) (us : List Update) :
    e.state.done ⊆ (e.after us).state.done := by
  induction us generalizing e with
  | nil => exact Finset.Subset.refl _
  | cons u us ih =>
      refine Finset.Subset.trans ?_ (ih (e.apply u))
      cases u with
      | done fp => exact Finset.subset_insert fp e.state.done
      | _ => exact Finset.Subset.refl _

/-- A file that is done is not taken again. -/
theorem Admissible.select_not_mem (h : e.Admissible (us ++ vs))
    (hdone : fp ∈ (e.after us).state.done) : .select fp ∉ vs := by
  intro hmem
  obtain ⟨before, rest, rfl⟩ := List.append_of_mem hmem
  rw [← List.append_assoc] at h
  have hguard := History.Admissible.guard h
  rw [History.replay_append] at hguard
  exact hguard.2.1 (done_subset_after _ before hdone)

/-- `processed` holds the files that have been recorded since it was cleared. -/
theorem mem_processed_after_start (us : List Update) :
    fp ∈ (start.after us).state.processed ↔ History.Since .clear (.processed fp) us := by
  induction us using List.reverseRecOn with
  | nil =>
      refine iff_of_false ?_ (History.not_since_nil _ _)
      exact Finset.notMem_empty fp
  | append_singleton us u ih =>
      rw [History.since_concat, ← ih, after, History.replay_append]
      cases u with
      | processed fp' =>
          simp only [History.replay_cons, History.replay_nil, apply, Finset.mem_insert,
            Update.processed.injEq, ne_eq, reduceCtorEq, not_false_eq_true, true_and]
          rw [eq_comm]
      | clear => simp [apply, AFLExecutorState.clear]
      | _ => simp [apply, AFLExecutorState.tick, AFLExecutorState.importState,
          AFLExecutorState.exportState]

/-- What is processed is done or hung. -/
def Consistent (e : Executor) : Prop :=
  ∀ fp ∈ e.state.processed, fp ∈ e.state.done ∨ fp ∈ e.state.hang

theorem apply_consistent {u : Update} (he : e.Consistent) (h : e.Allows u) :
    (e.apply u).Consistent := by
  intro fp hfp
  cases u with
  | hang fp' => exact (he fp hfp).imp_right (Finset.mem_insert_of_mem ·)
  | done fp' => exact (he fp hfp).imp_left (Finset.mem_insert_of_mem ·)
  | processed fp' =>
      rcases Finset.mem_insert.mp hfp with rfl | hfp
      · exact h.2
      · exact he fp hfp
  | clear => exact absurd hfp (Finset.notMem_empty fp)
  | _ => exact he fp hfp

theorem Admissible.consistent (h : e.Admissible us) (he : e.Consistent) :
    (e.after us).Consistent :=
  History.Admissible.invariant (fun _ _ => apply_consistent) h he

/-- A run of `run_file` is left by recording its file or with the process. -/
theorem Admissible.recorded_or_restart (h : e.Admissible us) (hpending : e.pending = some fp)
    (hafter : (e.after us).pending = none) : .processed fp ∈ us ∨ .restart ∈ us := by
  induction us generalizing e with
  | nil => simp [hpending] at hafter
  | cons u us ih =>
      cases u with
      | select fp' =>
          have hguard : e.pending = none := h.1.1
          simp [hpending] at hguard
      | processed fp' =>
          have hguard : e.pending = some fp' := h.1.1
          rw [hpending, Option.some.injEq] at hguard
          simp [hguard]
      | restart => simp
      | _ => simpa using ih h.2 hpending hafter

theorem Admissible.front (h : start.Admissible (us ++ vs)) :
    start.Admissible us :=
  (History.admissible_append.mp h).1

theorem Admissible.recorded_between {before between : List Update}
    (h : start.Admissible (before ++ .select fp :: between))
    (hpending : (start.after (before ++ .select fp :: between)).pending = none) :
    .processed fp ∈ between ∨ .restart ∈ between := by
  have hbetween : ((start.after before).apply (.select fp)).Admissible between :=
    (History.admissible_append.mp h).2.2
  rw [after, History.replay_append, History.replay_cons] at hpending
  exact hbetween.recorded_or_restart rfl hpending

/-- A file is taken twice without a `clear` in between only when the process has ended before
the file was recorded. -/
theorem Admissible.select_twice {before between rest : List Update}
    (h : start.Admissible (before ++ .select fp :: (between ++ .select fp :: rest)))
    (hclear : .clear ∉ between) : .processed fp ∉ between ∧ .restart ∈ between := by
  have hsplit : before ++ .select fp :: (between ++ .select fp :: rest) =
      (before ++ .select fp :: between) ++ .select fp :: rest := by simp
  rw [hsplit] at h
  have hguard := History.Admissible.guard h
  have hnot : .processed fp ∉ between := by
    intro hmem
    obtain ⟨first, last, rfl⟩ := List.append_of_mem hmem
    refine hguard.2.2 ((mem_processed_after_start _).mpr ?_)
    exact ⟨before ++ .select fp :: first, last, by simp, fun hlast => hclear (by simp [hlast])⟩
  exact ⟨hnot, (h.front.recorded_between hguard.1).resolve_left hnot⟩

/-- A file that is recorded has been taken since the last `clear`. -/
theorem Admissible.selected (h : start.Admissible us) :
    (∀ fp, (start.after us).pending = some fp → History.Since .clear (.select fp) us) ∧
      ∀ fp, History.Since .clear (.processed fp) us → History.Since .clear (.select fp) us := by
  induction us using List.reverseRecOn with
  | nil => exact ⟨nofun, fun fp hfp => absurd hfp (History.not_since_nil _ _)⟩
  | append_singleton us u ih =>
      obtain ⟨hadm, hguard, -⟩ := History.admissible_append.mp h
      obtain ⟨hpending, hrecorded⟩ := ih hadm
      have hlast : (start.after (us ++ [u])) = (start.after us).apply u :=
        History.replay_append _ _ _
      rw [hlast]
      simp only [History.since_concat]
      cases u with
      | select fp =>
          refine ⟨fun fp' hfp' => .inl ?_, fun fp' hfp' => ?_⟩
          · rw [Option.some.inj hfp']
          · exact .inr ⟨nofun, hrecorded fp' (by simpa using hfp')⟩
      | processed fp =>
          refine ⟨nofun, fun fp' hfp' => .inr ⟨nofun, ?_⟩⟩
          rcases hfp' with heq | ⟨-, hfp'⟩
          · rw [← Update.processed.inj heq]
            exact hpending fp hguard.1
          · exact hrecorded fp' hfp'
      | clear =>
          have hnone : (start.after us).pending = none := hguard
          refine ⟨fun fp' hfp' => ?_, fun fp' hfp' => by simp at hfp'⟩
          rw [show ((start.after us).apply .clear).pending = none from hnone] at hfp'
          simp at hfp'
      | restart =>
          exact ⟨nofun, fun fp' hfp' => .inr ⟨nofun, hrecorded fp' (by simpa using hfp')⟩⟩
      | _ =>
          exact ⟨fun fp' hfp' => .inr ⟨nofun, hpending fp' hfp'⟩,
            fun fp' hfp' => .inr ⟨nofun, hrecorded fp' (by simpa using hfp')⟩⟩

/-- The indices grow over a history. -/
theorem le_saved (e : Executor) (us : List Update) : ∀ i ∈ e.saved us, e.state.index ≤ i := by
  induction us generalizing e with
  | nil => simp [saved]
  | cons u us ih =>
      intro i hi
      have hrest := ih (e.apply u) i
      cases u with
      | tick =>
          rcases List.mem_cons.mp hi with rfl | hi
          · exact Nat.le_refl _
          · exact Nat.le_of_succ_le (hrest hi)
      | _ =>
          simp only [saved] at hi
          exact hrest hi

theorem saved_pairwise (e : Executor) (us : List Update) : (e.saved us).Pairwise (· < ·) := by
  induction us generalizing e with
  | nil => exact List.Pairwise.nil
  | cons u us ih =>
      cases u with
      | tick => exact List.Pairwise.cons (le_saved (e.apply .tick) us) (ih _)
      | _ => exact ih _

/-! ### The loop keeps to the schedule -/

end Executor

namespace AFLExecutorState

variable {s : AFLExecutorState} {queue : List QueueEntry} {fp : Path}

/-- The files that are left to run. -/
theorem mem_syncFiles : fp ∈ s.syncFiles queue ↔
    (∃ f ∈ queue, f.isfile = true ∧ f.path = fp) ∧ fp ∉ s.done ∧ fp ∉ s.processed := by
  simp only [syncFiles, List.mem_map, List.mem_insertionSort, List.mem_filter, List.mem_dedup,
    decide_eq_true_eq]
  constructor
  · rintro ⟨f, ⟨⟨hf, hfile⟩, hleft⟩, rfl⟩
    exact ⟨⟨f, hf, hfile, rfl⟩, hleft⟩
  · rintro ⟨⟨f, hf, hfile, rfl⟩, hleft⟩
    exact ⟨f, ⟨⟨hf, hfile⟩, hleft⟩, rfl⟩

end AFLExecutorState

namespace Executor

variable {e : Executor} {fp : Path}

theorem ticks_admissible (e : Executor) (testcases : List Bool) :
    e.Admissible (testcases.map fun _ => .tick) ∧
      (e.after (testcases.map fun _ => .tick)).pending = e.pending := by
  induction testcases generalizing e with
  | nil => exact ⟨trivial, rfl⟩
  | cons _ testcases ih =>
      obtain ⟨hadm, hpending⟩ := ih (e.apply .tick)
      exact ⟨⟨trivial, hadm⟩, hpending⟩

theorem runFile_admissible (hpending : e.pending = none) (hdone : fp ∉ e.state.done)
    (hprocessed : fp ∉ e.state.processed) (retcode : Int) (testcases : List Bool) :
    e.Admissible (runFile fp retcode testcases) ∧
      (e.after (runFile fp retcode testcases)).pending = none := by
  have hselect : e.Allows (.select fp) := ⟨hpending, hdone, hprocessed⟩
  unfold runFile handleByReturnCode
  split
  next =>
    obtain ⟨hticks, hafter⟩ := ticks_admissible
      (((e.apply (.select fp)).apply (.hang fp)).apply (.processed fp)) (testcases.filter id)
    have hrecord : ((e.apply (.select fp)).apply (.hang fp)).Allows (.processed fp) :=
      ⟨rfl, .inr (Finset.mem_insert_self fp _)⟩
    exact ⟨⟨hselect, trivial, hrecord, hticks⟩, hafter⟩
  next =>
    obtain ⟨hticks, hafter⟩ := ticks_admissible
      (((e.apply (.select fp)).apply (.done fp)).apply (.processed fp)) (testcases.filter id)
    have hrecord : ((e.apply (.select fp)).apply (.done fp)).Allows (.processed fp) :=
      ⟨rfl, .inl (Finset.mem_insert_self fp _)⟩
    exact ⟨⟨hselect, trivial, hrecord, hticks⟩, hafter⟩

theorem handleEmptyFiles_admissible (hpending : e.pending = none) :
    e.Admissible e.state.handleEmptyFiles ∧
      (e.after e.state.handleEmptyFiles).pending = none := by
  unfold AFLExecutorState.handleEmptyFiles
  split
  · exact ⟨⟨trivial, hpending, trivial⟩, hpending⟩
  · exact ⟨trivial, hpending⟩

theorem loopBody_admissible (hpending : e.pending = none) (p : Pass) :
    e.Admissible (e.state.loopBody p) ∧ (e.after (e.state.loopBody p)).pending = none := by
  unfold AFLExecutorState.loopBody
  cases hfiles : e.state.syncFiles p.queue with
  | nil => exact handleEmptyFiles_admissible hpending
  | cons fp rest =>
      have hleft := AFLExecutorState.mem_syncFiles.mp (hfiles ▸ List.mem_cons_self)
      exact runFile_admissible hpending hleft.2.1 hleft.2.2 p.retcode p.testcases

theorem pass_admissible (hpending : e.pending = none) (p : Pass) :
    e.Admissible (e.state.pass p) ∧ (e.after (e.state.pass p)).pending = none := by
  obtain ⟨hadm, hnone⟩ := loopBody_admissible hpending p
  unfold AFLExecutorState.pass
  cases p.ended with
  | none => exact ⟨hadm, hnone⟩
  | some n =>
      refine ⟨History.admissible_append.mpr ⟨hadm.take n, trivial, trivial⟩, ?_⟩
      rw [after, History.replay_append]
      rfl

theorem run_admissible (hpending : e.pending = none) (ps : List Pass) :
    e.Admissible (e.run ps) := by
  induction ps generalizing e with
  | nil => trivial
  | cons p ps ih =>
      obtain ⟨hadm, hnone⟩ := pass_admissible hpending p
      exact History.admissible_append.mpr ⟨hadm, ih hnone⟩

/-- A file that the loop may take when the queue lists it. -/
def Eligible (e : Executor) (fp : Path) : Prop :=
  fp ∉ e.state.done ∧ fp ∉ e.state.processed

/-- The schedule of a history, at every point of it. -/
structure Scheduled (history : List Update) : Prop where
  done {before rest : List Update} {fp : Path} : history = before ++ rest →
    fp ∈ (start.after before).state.done → .select fp ∉ rest
  /-- Between two increases of the timeout a file is taken twice only when the process has
  ended in between, before the file was recorded. -/
  twice {before between rest : List Update} {fp : Path} :
    history = before ++ .select fp :: (between ++ .select fp :: rest) → .clear ∉ between →
      .processed fp ∉ between ∧ .restart ∈ between
  consistent {before rest : List Update} : history = before ++ rest →
    (start.after before).Consistent
  /-- An increase of the timeout makes eligible what has been recorded since the last one
  and is not done. -/
  increase {before rest : List Update} : history = before ++ .clear :: rest → ∀ fp,
    (start.after (before ++ [.clear])).Eligible fp ∧ ¬ (start.after before).Eligible fp ↔
      History.Since .clear (.processed fp) before ∧ fp ∉ (start.after before).state.done
  /-- These are files that have been taken since the last increase, and hung. -/
  hung {before rest : List Update} : history = before ++ .clear :: rest → ∀ fp,
    History.Since .clear (.processed fp) before → fp ∉ (start.after before).state.done →
      History.Since .clear (.select fp) before ∧ fp ∈ (start.after before).state.hang
  /-- A file that has been taken before an increase was recorded, or the process ended. -/
  taken {before between rest : List Update} {fp : Path} :
    history = before ++ .select fp :: (between ++ .clear :: rest) →
      .processed fp ∈ between ∨ .restart ∈ between
  indices : (start.saved history).Pairwise (· < ·)

theorem Admissible.scheduled {history : List Update} (h : start.Admissible history) :
    Scheduled history where
  done := by
    rintro before rest fp rfl
    exact h.select_not_mem
  twice := by
    rintro before between rest fp rfl
    exact h.select_twice
  consistent := by
    rintro before rest rfl
    exact h.front.consistent fun fp hfp => absurd hfp (Finset.notMem_empty fp)
  increase := by
    rintro before rest rfl fp
    rw [← mem_processed_after_start, after, History.replay_append]
    have hcleared : ((start.after before).apply .clear).Eligible fp ↔
        fp ∉ (start.after before).state.done :=
      and_iff_left (Finset.notMem_empty fp)
    rw [History.replay_cons, History.replay_nil, hcleared, Eligible]
    tauto
  hung := by
    rintro before rest rfl fp hrecorded hdone
    have hconsistent := h.front.consistent fun fp hfp => absurd hfp (Finset.notMem_empty fp)
    refine ⟨h.front.selected.2 fp hrecorded, ?_⟩
    exact (hconsistent fp ((mem_processed_after_start before).mpr hrecorded)).resolve_left hdone
  taken := by
    rintro before between rest fp rfl
    have hsplit : before ++ .select fp :: (between ++ .clear :: rest) =
        (before ++ .select fp :: between) ++ .clear :: rest := by simp
    rw [hsplit] at h
    exact h.front.recorded_between (History.Admissible.guard h)
  indices := saved_pairwise start history

/-- Every run of the loop keeps to the schedule, over any number of processes. -/
theorem run_scheduled (ps : List Pass) : Scheduled (start.run ps) :=
  (run_admissible rfl ps).scheduled

/-- A process that ends within `run_file` leaves a file that the next one takes again. -/
theorem run_select_twice :
    ¬ ∀ ps before between rest fp,
      start.run ps = before ++ .select fp :: (between ++ .select fp :: rest) →
        .clear ∈ between := by
  intro h
  let queue : List QueueEntry := [⟨['a'], true, 1⟩]
  have hclear := h [⟨queue, 0, [], some 1⟩, ⟨queue, 0, [], none⟩] [] [.restart]
    [.done ['a'], .processed ['a']] ['a'] rfl
  simp at hclear

end Executor

end Qsym
