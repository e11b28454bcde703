import Qsym.Concolic.Step
import Qsym.Solver.Generate

/-!
# Qsym.Concolic.Watch

**Runs.** The tool watches a program from where its input lies in memory: before each instruction
the handler updates the shadow, and the solver serves what it requests. Whatever the program does,
the tool keeps **track** of it (`Tracks`): the shadow describes the machines of the inputs that
have shown the same events so far, and what the solver has recorded holds of these inputs, and of
no others unless Z3 gave up on an address. One instruction keeps this (`Handles.tracks`), and so
does a run (`Sees.tracks`). -/

namespace Qsym

open Procedure Qsym.Expr X86
open SymbolicExprBuilder (chain)

/-- The tool beside a process: the shadow, the solver, and what the builders share. -/
structure Tool where
  shadow : Shadow
  solver : SolverState
  world : World

/-- What is fixed while a run is watched: the platform, which is as Pin documents it, the program,
and what the solver has. -/
structure Watch (Reg : Type) where
  process : Process Reg
  session : Session
  code : Code Reg
  z3 : Z3
  tracer : Tracer
  fuel : Nat
  documented : process.pin.Documented
  points : process.pin.Points
  builder_eq : process.builder = chain

namespace Watch

variable {Reg : Type} [DecidableEq Reg] (W : Watch Reg)

/-- An instruction that is about to run on the machine `M` is handled, and its requests are
served. -/
structure Handles (M : Machine Reg) (i : Instruction Reg) (t t' : Tool) : Prop where
  fits : i.Fits W.process
  clears : i.Clears W.process M t.shadow
  handles : ∃ requests w,
    Runs (body W.session) (i.handler W.process M t.shadow) t.world ((), t'.shadow, requests) w ∧
      Runs (body W.session) (t.solver.serveAll W.process.builder W.z3 W.tracer W.fuel requests) w
        t'.solver t'.world

/-- A watched run, and the events that it shows. -/
inductive Sees : Machine Reg → Tool → List Event → Machine Reg → Tool → Prop
  | nil {M : Machine Reg} {t : Tool} : Sees M t [] M t
  | cons {M M' : Machine Reg} {t t₁ t' : Tool} {i : Instruction Reg} {next : Addr}
    {events : List Event} :
      W.code (M.pc W.process) = some (i, next) → W.Handles M i t t₁ →
      Sees (i.exec W.process M next) t₁ events M' t' →
        Sees M t (i.event W.process M :: events) M' t'

/-- From the machine `M` the program shows the events. -/
def Shows (M : Machine Reg) (events : List Event) : Prop :=
  ∃ M', M.run W.process W.code events.length = some (events, M')

variable {W} {E : Input → Prop} {M : Input → Machine Reg} {M₁ M₂ : Machine Reg} {t t' : Tool}
variable {i : Instruction Reg} {events : List Event} {next : Addr} {ρ : Input}

omit [DecidableEq Reg] in
variable (W) in
theorem transparent : Transparent W.session anyCall W.process.builder :=
  W.builder_eq ▸ chain_transparent W.session

variable (W) in
/-- The shadow describes the machines of the inputs of `E`, and these are the inputs that what was
recorded holds of. -/
structure Tracks (E : Input → Prop) (M : Input → Machine Reg) (t : Tool) : Prop where
  describes : W.process.Describes W.session E M t.shadow
  tame : t.shadow.Tame (· < W.session.inputs.length)
  records : ∃ facts nodes, SolverState.Records W.session facts nodes [] t.solver ∧
    (∀ ρ, E ρ → facts ρ) ∧ (W.z3.Correct W.session.inputs.length → ∀ ρ, facts ρ → E ρ)

/-- **One instruction.** -/
theorem Handles.tracks (h : W.Handles (M W.session.input) i t t')
    (ht : W.Tracks E M t) (next : Addr) :
    W.Tracks (W.process.Follows W.session E M i) (fun ρ => i.exec W.process (M ρ) next) t' := by
  obtain ⟨requests, w, hhandler, hserve⟩ := h.handles
  obtain ⟨htruthful, htame, hfollows, hdescribes⟩ :=
    Process.handler_steps ht.describes W.documented W.points
    W.builder_eq ht.tame h.fits h.clears next hhandler
  obtain ⟨facts, nodes, hrecords, hsound, hcomplete⟩ := ht.records
  obtain ⟨facts', nodes', hrecords', hall, hfacts⟩ :=
    (SolverState.serveAll_records W.transparent htruthful hrecords).result hserve
  refine ⟨hdescribes, htame, facts', nodes', hrecords', fun ρ hρ => ?_, fun hz ρ hρ => ?_⟩
  · obtain ⟨hE, hq⟩ := (hfollows ρ).2 hρ
    exact hall ρ (hsound ρ hE) hq
  · obtain ⟨hfacts, hq⟩ := hfacts ρ hρ
    exact (hfollows ρ).1 ⟨hcomplete hz ρ hfacts, fun q hqs => hq q hqs fun _ => hz⟩

theorem Tracks.congr {E' : Input → Prop} (ht : W.Tracks E M t) (hE : ∀ ρ, E ρ ↔ E' ρ) :
    W.Tracks E' M t := by
  obtain rfl : E = E' := funext fun ρ => propext (hE ρ)
  exact ht

/-! ### Runs -/

theorem run_cons {M' : Machine Reg} {e : Event}
    (hcode : W.code (M₁.pc W.process) = some (i, next)) :
    M₁.run W.process W.code (e :: events).length = some (e :: events, M') ↔
      i.event W.process M₁ = e ∧
        (i.exec W.process M₁ next).run W.process W.code events.length = some (events, M') := by
  rw [List.length_cons, Machine.run, hcode]
  cases hrun : (i.exec W.process M₁ next).run W.process W.code events.length with
  | none => simp [hrun]
  | some x => simp [hrun, Prod.ext_iff, and_assoc]

theorem shows_cons {e : Event} (hcode : W.code (M₁.pc W.process) = some (i, next)) :
    W.Shows M₁ (e :: events) ↔
      i.event W.process M₁ = e ∧ W.Shows (i.exec W.process M₁ next) events := by
  simp only [Shows, run_cons hcode, exists_and_left]

/-- **Runs.** -/
theorem Sees.tracks (h : W.Sees M₁ t events M₂ t') (hM : M W.session.input = M₁)
    (ht : W.Tracks E M t) :
    ∃ M', M' W.session.input = M₂ ∧ W.Tracks (fun ρ => E ρ ∧ W.Shows (M ρ) events) M' t' ∧
      ∀ ρ, E ρ → ∀ M'', (M ρ).run W.process W.code events.length = some (events, M'') →
        M'' = M' ρ := by
  induction h generalizing E M with
  | nil =>
      refine ⟨M, hM, ht.congr fun ρ => (and_iff_left ⟨M ρ, rfl⟩).symm, fun ρ _ M'' hrun => ?_⟩
      cases hrun
      rfl
  | @cons M₁ M₂ t t₁ t' i next events hcode hhandles _ ih =>
      subst hM
      have hstep := hhandles.tracks ht next
      -- every input of `E` is at the same instruction
      have hcode' (ρ : Input) (hρ : E ρ) : W.code ((M ρ).pc W.process) = some (i, next) := by
        rw [ht.describes.pc_eq hρ, hcode]
      obtain ⟨M', hM', htracks, hrun⟩ := ih rfl hstep
      refine ⟨M', hM', htracks.congr fun ρ => ?_, fun ρ hρ M'' hrun' => ?_⟩
      · rw [Process.Follows, and_assoc]
        exact and_congr_right fun hρ => (shows_cons (hcode' ρ hρ)).symm
      · obtain ⟨hevent, hrest⟩ := (run_cons (hcode' ρ hρ)).1 hrun'
        exact hrun ρ ⟨hρ, hevent⟩ M'' hrest

end Watch

end Qsym
