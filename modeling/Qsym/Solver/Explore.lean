import Qsym.Instrument.Handler
import Qsym.Solver.PathCondition

/-!
# Qsym.Solver.Explore

The four calls that the handlers make to the solver (`addJcc`, `addAddr`, `addValue` and
`solveAll`), and **runs** of them.

Each call may first look for new inputs, and then records what the process has shown. The search
leaves the record alone (`Solver.Quiet`), so what is recorded over a run are the facts of its calls,
whatever Z3 answers (`Served.records`). There is one way to lose a fact: an address is not recorded
if Z3 gives up on the constraints that led to it.
-/

namespace Qsym

open Procedure Smt

/-- A step that may fail. -/
def Build.attempt {α : Type} : Option α → Build α
  | some a => .ret a
  | none => .stop

namespace Solver

variable (b : ExprBuilder) (z : Z3) (ranges : RangeSets) (s : Solver)

def negatePath (e : Expr) (taken : Bool) : Build Solver := do
  let s ← s.reset.syncConstraints b z ranges e
  let s ← s.addToSolver b z e (!taken)
  let (sat, s) ← Build.attempt (s.checkAndSave z "")
  if sat then return s
  else
    -- optimistic solving
    let s ← s.reset.addToSolver b z e (!taken)
    let (_, s) ← Build.attempt (s.checkAndSave z "optimistic")
    return s

def solveOne (z3_expr : Term) : Option Solver := do
  let (_, s) ← (s.push.add z z3_expr).checkAndSave z ""
  s.pop

/-- What `addAddr` looks for: an address at either end. A value that was not found is no
expression to compare with. -/
def solveBounds (z3_expr : Term) (fuel : Nat) : Option Solver := do
  let (min_expr, s) ← s.getMinValue z z3_expr fuel
  let (max_expr, s) ← s.getMaxValue z z3_expr fuel
  let s ← s.solveOne z (.eq z3_expr (← min_expr))
  s.solveOne z (.eq z3_expr (← max_expr))

end Solver

namespace SolverState

variable (b : ExprBuilder) (z : Z3) (T : Tracer) (S : SolverState)

/-- The constructor: nothing is recorded yet. -/
def new (inputs_ : List (BitVec 8)) (out_dir_ bitmap : String) (file : File) : SolverState where
  solver :=
    { inputs_, out_dir_, solver_ := { assertions := [], scopes := [], checks := 0, model := none }
      num_generated_ := 0, last_interested_ := false, dep_forest_ := .empty, saved := [] }
  ranges _ _ := none
  trace_ := .start bitmap file

/-- `isInterestingJcc` -/
def isInterestingJcc (taken : Bool) (pc : Addr) : Option (Bool × SolverState) := do
  let (interesting, trace_) ← S.trace_.step T (.branch pc taken)
  -- record for other decision
  return (interesting,
    { S with trace_, solver := { S.solver with last_interested_ := interesting } })

/-- `addJcc`, of a condition that says something. -/
def addRelational (e : Expr) (taken : Bool) (pc : Addr) : Build SolverState := do
  -- a call that is no branch relies on the last answer
  let (is_interesting, S) ← Build.attempt (
    if pc = 0 then some (S.solver.last_interested_, S) else S.isInterestingJcc T taken pc)
  if is_interesting then
    let solver ← S.solver.negatePath b z S.ranges e taken
    { S with solver }.addConstraint b e taken
  else S.addConstraint b e taken

def addJcc (e : Expr) (taken : Bool) (pc : Addr) : Build SolverState :=
  if e.isConcrete then .ret S
  else match e with
  -- if e == Bool(true), then ignore
  | .bool _ value => if value = taken then .ret S else .stop
  | e => if e.isRelational then S.addRelational b z T e taken pc else .stop

def addValue (e : Expr) (val : BitVec e.bits) : Build SolverState :=
  if e.isConcrete then .ret S
  else do
    let expr_val ← b.create (.constant e.bits val)
    let expr_concrete ← b.createEqual e expr_val
    S.addConstraint b expr_concrete true

def addAddr (e : Expr) (addr : BitVec e.bits) (fuel : Nat) : Build SolverState :=
  if e.isConcrete then .ret S
  else if S.solver.last_interested_ then do
    let solver ← S.solver.reset.syncConstraints b z S.ranges e
    match solver.check z with
    | (.sat _, solver) => do
        let solver ← Build.attempt (solver.solveBounds z e.toZ3Expr fuel)
        { S with solver }.addValue b e addr
    | (_, solver) => .ret { S with solver }
  else S.addValue b e addr

/-- `Solver::solveAll`, with the `addValue` at its end. -/
def solveAll (e : Expr) (val : BitVec e.bits) (fuel : Nat) : Build SolverState := do
  let solver ← S.solver.solveAll b z S.ranges e val fuel
  { S with solver }.addValue b e val

/-- What the solver does at a request. The others are for the call stack manager. -/
def serve {Reg : Type} (fuel : Nat) (S : SolverState) : Request Reg → Build SolverState
  | .addJcc e taken pc => S.addJcc b z T e taken (BitVec.ofNat 64 pc)
  | .addAddr e addr => S.addAddr b z e (BitVec.ofNat e.bits addr.toNat) fuel
  | .addValue _ e val => S.addValue b e (BitVec.ofNat e.bits val)
  | .solveAll _ e val => S.solveAll b z e (BitVec.ofNat e.bits val) fuel
  | .visitBasicBlock _ | .visitCall _ | .visitRet _ => .ret S

def serveAll {Reg : Type} (fuel : Nat) (S : SolverState) (requests : List (Request Reg)) :
    Build SolverState :=
  requests.foldlM (serve b z T fuel) S

end SolverState

/-! ### What requests say -/

namespace Request

variable {Reg : Type}

/-- What the process has shown when it makes a request. -/
def fact : Request Reg → Input → Prop
  | addJcc e taken _, ρ => e.truth ρ = taken
  | addAddr e addr, ρ => e.bv ρ e.bits = BitVec.ofNat e.bits addr.toNat
  | addValue _ e val, ρ | solveAll _ e val, ρ => e.bv ρ e.bits = BitVec.ofNat e.bits val
  | visitBasicBlock _, _ | visitCall _, _ | visitRet _, _ => True

/-- The record of an address relies on the answer of Z3. -/
def isAddr : Request Reg → Bool
  | addAddr .. => true
  | _ => false

/-- A request that a handler may make in a session: a condition or a bit vector over its input,
with what it is there. -/
structure Truthful (σ : Session) (q : Request Reg) : Prop where
  fact : q.fact σ.input
  shape : match q with
    | addJcc e _ _ =>
        e.IsBool ∧ (∀ i ∈ e.getDeps, i < σ.inputs.length) ∧
          (e.isConcrete = false → e.core.isRelational = true)
    | addAddr e _ | addValue _ e _ => e.IsBV e.bits ∧ ∀ i ∈ e.getDeps, i < σ.inputs.length
    | solveAll _ e _ =>
        e.IsBV e.bits ∧ (∀ i ∈ e.getDeps, i < σ.inputs.length) ∧ e.isConcrete = false
    | _ => True

end Request

/-! ### Searching leaves the record alone -/

namespace Solver

/-- From `s` to `s'` nothing was recorded, though test cases may have been put out. -/
structure Quiet (s s' : Solver) : Prop where
  inputs : s'.inputs_ = s.inputs_
  interested : s'.last_interested_ = s.last_interested_
  saved : s.saved <+: s'.saved
  sorted : ∀ {nodes : List Expr}, DependencyForest.Sorted Expr.getDeps s.dep_forest_ nodes →
    DependencyForest.Sorted Expr.getDeps s'.dep_forest_ nodes

variable {σ : Session} {ok : MethodCall → Prop} {b : ExprBuilder} {z : Z3} {ranges : RangeSets}
  {s s' s₁ : Solver} {e node : Expr} {suffix : String} {z3_expr value : Term} {fuel : Nat}

namespace Quiet

theorem of_saved (hinputs : s'.inputs_ = s.inputs_)
    (hinterested : s'.last_interested_ = s.last_interested_) (hsaved : s.saved <+: s'.saved)
    (hforest : s'.dep_forest_ = s.dep_forest_) : Quiet s s' :=
  ⟨hinputs, hinterested, hsaved, fun h => hforest ▸ h⟩

theorem of_forest (hinputs : s'.inputs_ = s.inputs_)
    (hinterested : s'.last_interested_ = s.last_interested_) (hsaved : s'.saved = s.saved)
    (hforest : s'.dep_forest_ = s.dep_forest_) : Quiet s s' :=
  of_saved hinputs hinterested (hsaved ▸ List.prefix_rfl) hforest

theorem refl (s : Solver) : Quiet s s :=
  of_forest rfl rfl rfl rfl

theorem trans (h : Quiet s s₁) (h' : Quiet s₁ s') : Quiet s s' :=
  ⟨h'.inputs.trans h.inputs, h'.interested.trans h.interested, h.saved.trans h'.saved,
    fun hs => h'.sorted (h.sorted hs)⟩

theorem add (s : Solver) (t : Term) : Quiet s (s.add z t) := by
  unfold Solver.add
  split
  · exact refl s
  · exact of_forest rfl rfl rfl rfl

theorem pop (h : s.pop = some s') : Quiet s s' := by
  obtain ⟨solver_, -, rfl⟩ := Option.map_eq_some_iff.1 h
  exact of_forest rfl rfl rfl rfl

theorem saveValues (h : s.saveValues suffix = some s') : Quiet s s' := by
  obtain ⟨values, -, h⟩ := Option.bind_eq_some_iff.1 h
  split at h <;> obtain rfl := Option.some.inj h <;>
    exact of_saved rfl rfl (List.prefix_append _ _) rfl

theorem checkAndSave {sat : Bool} (h : s.checkAndSave z suffix = some (sat, s')) : Quiet s s' := by
  have hcheck : Quiet s (s.check z).2 := of_forest rfl rfl rfl rfl
  unfold Solver.checkAndSave at h
  split at h
  next m s₁ heq =>
      rw [heq] at hcheck
      obtain ⟨s₂, hsave, h⟩ := Option.bind_eq_some_iff.1 h
      obtain ⟨-, rfl⟩ := Prod.mk.inj (Option.some.inj h)
      exact hcheck.trans (saveValues hsave)
  next s₁ _ heq =>
      rw [heq] at hcheck
      obtain ⟨-, rfl⟩ := Prod.mk.inj (Option.some.inj h)
      exact hcheck

theorem searchLoop {block : Term → Solver → Solver} (hblock : ∀ t s, Quiet s (block t s))
    {first last : Option Term}
    (h : s.searchLoop z suffix block z3_expr fuel first = some (last, s')) : Quiet s s' := by
  induction fuel generalizing s first with
  | zero => cases h
  | succ fuel ih =>
      obtain ⟨⟨sat, s₁⟩, hcheck, h⟩ := Option.bind_eq_some_iff.1 h
      have hquiet := checkAndSave hcheck
      cases sat with
      | false =>
          obtain ⟨-, rfl⟩ := Prod.mk.inj (Option.some.inj h)
          exact hquiet
      | true =>
          obtain ⟨value, -, h⟩ := Option.bind_eq_some_iff.1 h
          exact (hquiet.trans (hblock value s₁)).trans (ih h)

theorem getExtremum {bound : BVPred} {last : Option Term}
    (h : s.getExtremum z bound z3_expr fuel = some (last, s')) : Quiet s s' := by
  obtain ⟨⟨value, s₁⟩, hloop, h⟩ := Option.bind_eq_some_iff.1 h
  obtain ⟨s₂, hpop, h⟩ := Option.bind_eq_some_iff.1 h
  obtain ⟨-, rfl⟩ := Prod.mk.inj (Option.some.inj h)
  have hpush : Quiet s s.push := of_forest rfl rfl rfl rfl
  have hblock (t : Term) (s : Solver) : Quiet s (s.addExpr (.bvpred bound z3_expr t)) :=
    of_forest rfl rfl rfl rfl
  exact (hpush.trans (searchLoop hblock hloop)).trans (pop hpop)

theorem solveOne (h : s.solveOne z z3_expr = some s') : Quiet s s' := by
  obtain ⟨⟨sat, s₁⟩, hcheck, h⟩ := Option.bind_eq_some_iff.1 h
  have hpush : Quiet s s.push := of_forest rfl rfl rfl rfl
  exact ((hpush.trans (add _ _)).trans (checkAndSave hcheck)).trans (pop h)

theorem solveBounds (h : s.solveBounds z z3_expr fuel = some s') : Quiet s s' := by
  obtain ⟨⟨min_expr, s₁⟩, hmin, h⟩ := Option.bind_eq_some_iff.1 h
  obtain ⟨⟨max_expr, s₂⟩, hmax, h⟩ := Option.bind_eq_some_iff.1 h
  obtain ⟨min, -, h⟩ := Option.bind_eq_some_iff.1 h
  obtain ⟨s₃, hone, h⟩ := Option.bind_eq_some_iff.1 h
  obtain ⟨max, -, h⟩ := Option.bind_eq_some_iff.1 h
  exact (((getExtremum hmin).trans (getExtremum hmax)).trans (solveOne hone)).trans (solveOne h)

end Quiet

theorem addToSolver_quiet {taken : Bool} :
    Yields (body σ) ok (s.addToSolver b z e taken) (Quiet s) := by
  cases taken with
  | true => exact .ret (.add _ _)
  | false => exact Yields.bind (Yields.any (b.createLNot e)) fun _ _ => .ret (.add _ _)

theorem addNode_quiet : Yields (body σ) ok (s.addNode b z ranges node) (Quiet s) := by
  have hrange (s : Solver) (u : Bool) :
      Yields (body σ) ok (s.addRange b z ranges node u) (Quiet s) := by
    refine (Yields.any _).bind fun exprRange _ => ?_
    cases exprRange with
    | none => exact .ret (.refl s)
    | some x => exact addToSolver_quiet
  unfold addNode
  split
  · exact addToSolver_quiet
  · exact (hrange s false).bind fun s₁ h₁ => (hrange s₁ true).bind fun s₂ h₂ => .ret (h₁.trans h₂)

theorem syncConstraints_quiet : Yields (body σ) ok (s.syncConstraints b z ranges e) (Quiet s) := by
  have hfound : Quiet s
      { s with dep_forest_ := (s.dep_forest_.findAll (e.getDeps.sort (· ≤ ·))).2 } :=
    ⟨rfl, rfl, List.prefix_rfl, fun h => (findAll_spec h _).sorted⟩
  exact Yields.foldlM (Q := fun _ => Quiet s) (fun _ _ _ _ h =>
    addNode_quiet.mono fun _ h' => h.trans h') [] hfound

theorem attempt_quiet {α : Type} {o : Option α} {s₁ : α → Solver}
    (h : ∀ a, o = some a → Quiet s (s₁ a)) :
    Yields (body σ) ok (Build.attempt o) fun a => Quiet s (s₁ a) := by
  cases o with
  | none => exact .stop
  | some a => exact .ret (h a rfl)

theorem negatePath_quiet {taken : Bool} :
    Yields (body σ) ok (s.negatePath b z ranges e taken) (Quiet s) := by
  have hreset (s : Solver) : Quiet s s.reset := .of_forest rfl rfl rfl rfl
  refine syncConstraints_quiet.bind fun s₁ h₁ => addToSolver_quiet.bind fun s₂ h₂ => ?_
  have h₂ := ((hreset s).trans h₁).trans h₂
  refine (attempt_quiet fun x h => h₂.trans (.checkAndSave h)).bind ?_
  rintro ⟨sat, s₃⟩ h₃
  cases sat with
  | true => exact .ret h₃
  | false =>
      refine addToSolver_quiet.bind fun s₄ h₄ => ?_
      have h₄ := (h₃.trans (hreset s₃)).trans h₄
      exact (attempt_quiet fun x h => h₄.trans (.checkAndSave h)).bind fun x h₅ => .ret h₅

theorem enumerate_quiet : Yields (body σ) ok (s.enumerate z suffix z3_expr fuel) (Quiet s) := by
  unfold enumerate
  dsimp only
  split
  next h => exact .ret (.searchLoop (fun _ _ => .add _ _) h)
  next => exact .stop

theorem solveAll_quiet {val : BitVec e.bits} :
    Yields (body σ) ok (s.solveAll b z ranges e val fuel) (Quiet s) := by
  have hreset (s : Solver) : Quiet s s.reset := .of_forest rfl rfl rfl rfl
  unfold solveAll
  split
  · refine (Yields.any _).bind fun _ _ => (Yields.any _).bind fun _ _ => ?_
    refine syncConstraints_quiet.bind fun s₁ h₁ => addToSolver_quiet.bind fun s₂ h₂ => ?_
    have hcheck : Quiet s (s₂.check z).2 :=
      (((hreset s).trans h₁).trans h₂).trans (.of_forest rfl rfl rfl rfl)
    generalize s₂.check z = answer at hcheck
    obtain ⟨res, s₃⟩ := answer
    cases res with
    | sat => exact enumerate_quiet.mono fun _ h => hcheck.trans h
    | unsat | unknown =>
        refine addToSolver_quiet.bind fun s₄ h₄ => enumerate_quiet.mono fun _ h => ?_
        exact ((hcheck.trans (hreset s₃)).trans h₄).trans h
  · exact .ret (.refl s)

end Solver

/-! ### What is recorded -/

namespace SolverState

variable {Reg : Type} {σ : Session} {ok : MethodCall → Prop} {b : ExprBuilder} {z : Z3} {T : Tracer}
  {S S' : SolverState} {facts : Input → Prop} {nodes : List Expr} {e : Expr} {fuel : Nat}
  {q : Request Reg}

theorem bv_of_isConcrete (hc : e.isConcrete = true) {val : BitVec e.bits}
    (hval : e.bv σ.input e.bits = val) (ρ : Input) : e.bv ρ e.bits = val := by
  rw [← hval, Expr.bv, Expr.value_of_isConcrete hc ρ σ.input, Expr.bv]

theorem Records.of_solver (h : Records σ facts nodes [] S) {solver : Solver} (trace_ : Campaign)
    (hinputs : solver.inputs_ = σ.inputs)
    (hsorted : DependencyForest.Sorted Expr.getDeps solver.dep_forest_ nodes) :
    Records σ facts nodes [] { S with solver, trace_ } :=
  { sorted := hsorted
    inputs := hinputs
    recordable := h.recordable
    ranged := h.ranged
    admits := h.admits
    truth := h.truth
    complete := h.complete
    input := h.input }

theorem Records.quiet (h : Records σ facts nodes [] S) {solver : Solver}
    (hquiet : Solver.Quiet S.solver solver) : Records σ facts nodes [] { S with solver } :=
  h.of_solver S.trace_ (hquiet.inputs.trans h.inputs) (hquiet.sorted h.sorted)

/-- **A value is recorded.** -/
theorem addValue_records (hb : Transparent σ ok b) (h : Records σ facts nodes [] S)
    {val : BitVec e.bits} (he : e.IsBV e.bits) (hinside : ∀ i ∈ e.getDeps, i < σ.inputs.length)
    (hval : e.bv σ.input e.bits = val) :
    Builds σ ok (S.addValue b e val) (Extends σ S fun ρ => facts ρ ∧ e.bv ρ e.bits = val) := by
  unfold addValue
  cases hc : e.isConcrete with
  | true =>
      exact .ret ⟨.refl S, nodes, h.congr fun ρ => (and_iff_left (bv_of_isConcrete hc hval ρ)).symm⟩
  | false =>
      refine Total.bind (hb.constant val he.pos) ?_
      rintro _ ⟨ref, rfl⟩
      have himm := Expr.isBV_constant he.pos ref val
      refine Total.bind (hb.equal he himm (Solver.isConstant_of_not_isConcrete hc) rfl) ?_
      rintro _ ⟨ref', rfl⟩
      have hbool : (Expr.compare ref' .equal (.constant ref e.bits val) e).IsBool :=
        ⟨⟨himm.wellSorted, he.wellSorted, rfl, himm.isBoolean.trans he.isBoolean.symm,
          fun _ => himm.isBoolean⟩, rfl⟩
      have htruth (ρ : Input) :
          (Expr.compare ref' .equal (.constant ref e.bits val) e).truth ρ = true ↔
            e.bv ρ e.bits = val := by
        rw [Expr.truth_compare (l := .constant ref e.bits val) rfl]
        show (Expr.bv ρ e.bits (.constant ref e.bits val) == e.bv ρ e.bits) = true ↔ _
        rw [Expr.bv_constant]
        exact beq_iff_eq.trans eq_comm
      have hdeps : ∀ i ∈ (Expr.compare ref' .equal (.constant ref e.bits val) e).getDeps,
          i < σ.inputs.length := fun i hi => hinside i (by simpa [Expr.getDeps] using hi)
      refine (addConstraint_records hb h hbool hdeps ((htruth _).2 hval) rfl).mono ?_
      rintro S' ⟨honly, nodes', hrecords⟩
      exact ⟨honly, nodes', hrecords.congr fun ρ => and_congr_right fun _ => htruth ρ⟩

/-- What comes of the facts at a request. Whether its fact is kept may depend on `sure`. -/
def Learns (sure : Prop) (fact facts facts' : Input → Prop) : Prop :=
  ∀ ρ, (facts ρ ∧ fact ρ → facts' ρ) ∧ (facts' ρ → facts ρ ∧ (sure → fact ρ))

/-- `S` has recorded facts learnt at a request. -/
def Recorded (σ : Session) (sure : Prop) (fact facts : Input → Prop) (S : SolverState) : Prop :=
  ∃ facts' nodes, Learns sure fact facts facts' ∧ Records σ facts' nodes [] S

theorem Extends.recorded {sure : Prop} {fact : Input → Prop}
    (h : Extends σ S (fun ρ => facts ρ ∧ fact ρ) S') : Recorded σ sure fact facts S' := by
  obtain ⟨-, nodes', hrecords⟩ := h
  exact ⟨_, nodes', fun ρ => ⟨id, fun hρ => ⟨hρ.1, fun _ => hρ.2⟩⟩, hrecords⟩

theorem addJcc_concrete (hc : e.isConcrete = true) (taken : Bool) (pc : Addr) :
    S.addJcc b z T e taken pc = .ret S :=
  if_pos hc

theorem addJcc_symbolic (hc : e.isConcrete = false)
    (hcore : e.core.isRelational = true) (taken : Bool)
    (pc : Addr) : S.addJcc b z T e taken pc = S.addRelational b z T e taken pc := by
  have hrel := Expr.isRelational_of_core hcore
  unfold addJcc
  rw [if_neg (by simp [hc])]
  cases e with
  | bool => cases hc
  | _ => exact if_pos hrel

/-- The question whether a jump is interesting records nothing. -/
theorem Records.isInterestingJcc (h : Records σ facts nodes [] S) {taken : Bool} {pc : Addr}
    {interesting : Bool}
    (hanswer : (if pc = 0 then some (S.solver.last_interested_, S)
      else S.isInterestingJcc T taken pc) =
      some (interesting, S')) : Records σ facts nodes [] S' := by
  split at hanswer
  · obtain ⟨-, rfl⟩ := Prod.mk.inj (Option.some.inj hanswer)
    exact h
  · obtain ⟨x, -, hanswer⟩ := Option.bind_eq_some_iff.1 hanswer
    obtain ⟨-, rfl⟩ := Prod.mk.inj (Option.some.inj hanswer)
    exact h.of_solver x.2 h.inputs h.sorted

theorem addJcc_records (hb : Transparent σ ok b) (h : Records σ facts nodes [] S)
    {taken : Bool} {pc : Addr}
    {sure : Prop} (he : e.IsBool) (hinside : ∀ i ∈ e.getDeps, i < σ.inputs.length)
    (hcore : e.isConcrete = false → e.core.isRelational = true) (htaken : e.truth σ.input = taken) :
    Yields (body σ) ok (S.addJcc b z T e taken pc)
      (Recorded σ sure (fun ρ => e.truth ρ = taken) facts) := by
  cases hc : e.isConcrete with
  | true =>
      rw [addJcc_concrete hc]
      refine .ret ⟨facts, nodes, fun ρ => ⟨And.left, fun hρ => ⟨hρ, fun _ => ?_⟩⟩, h⟩
      show e.truth ρ = taken
      rw [← htaken, Expr.truth, Expr.value_of_isConcrete hc ρ σ.input, Expr.truth]
  | false =>
      rw [addJcc_symbolic hc (hcore hc)]
      have hrecord {S : SolverState} (h : Records σ facts nodes [] S) :
          Yields (body σ) ok (S.addConstraint b e taken)
            (Recorded σ sure (fun ρ => e.truth ρ = taken) facts) :=
        (Yields.of_total (addConstraint_records hb h he hinside htaken (hcore hc))).mono
          fun _ => Extends.recorded
      have hjcc : Yields (body σ) ok (Build.attempt (
          if pc = 0 then some (S.solver.last_interested_, S) else S.isInterestingJcc T taken pc))
          fun x => Records σ facts nodes [] x.2 := by
        cases hanswer : (if pc = 0 then some (S.solver.last_interested_, S)
          else S.isInterestingJcc T taken pc) with
        | none => exact .stop
        | some x => exact .ret (h.isInterestingJcc hanswer)
      unfold addRelational
      refine hjcc.bind ?_
      rintro ⟨interesting, S₁⟩ h₁
      cases interesting with
      | false => exact hrecord h₁
      | true => exact Solver.negatePath_quiet.bind fun solver hquiet => hrecord (h₁.quiet hquiet)

/-- The constraints that led to an address can be satisfied. -/
theorem syncConstraints_sat (hb : Transparent σ ok b) (h : Records σ facts nodes [] S)
    (hz : z.Correct σ.inputs.length) :
    Builds σ ok (S.solver.reset.syncConstraints b z S.ranges e) fun s =>
      ∃ m, z.check s.solver_.checks s.solver_.assertions = .sat m := by
  have hz' : z.Correct S.solver.reset.inputs_.length := h.inputs ▸ hz
  refine (Solver.syncConstraints_asserts (s := S.solver.reset) hb.sound hz' h.inputs
    trivial h.sorted
    (fun _ => h.isNode) rfl).mono fun s hs => ?_
  have hinputs : s.inputs_.length = σ.inputs.length :=
    congrArg List.length (hs.puts.inputs.trans h.inputs)
  have hover := hs.overInput
  unfold Solver.OverInput at hover
  rw [hinputs] at hover
  have hinput := (hs.holds σ.input trivial).2 fun node hnode _ => (h.isNode hnode).holds
  cases hcheck : z.check s.solver_.checks s.solver_.assertions with
  | sat m => exact ⟨m, rfl⟩
  | unsat => exact absurd hinput (hz.unsat hover hcheck σ.input)
  | unknown => exact absurd hcheck (hz.decides hover)

/-- What does not depend on the input has been told already. -/
theorem Records.recorded_of_concrete (h : Records σ facts nodes [] S) {sure : Prop}
    {fact : Input → Prop}
    (hfact : ∀ ρ, fact ρ) : Recorded σ sure fact facts S :=
  ⟨facts, nodes, fun ρ => ⟨And.left, fun hρ => ⟨hρ, fun _ => hfact ρ⟩⟩, h⟩

theorem addAddr_records (hb : Transparent σ ok b) (h : Records σ facts nodes [] S)
    {addr : BitVec e.bits} (he : e.IsBV e.bits) (hinside : ∀ i ∈ e.getDeps, i < σ.inputs.length)
    (haddr : e.bv σ.input e.bits = addr) :
    Yields (body σ) ok (S.addAddr b z e addr fuel)
      (Recorded σ (z.Correct σ.inputs.length) (fun ρ => e.bv ρ e.bits = addr) facts) := by
  have hrecord {S : SolverState} (h : Records σ facts nodes [] S) :
      Yields (body σ) ok (S.addValue b e addr)
        (Recorded σ (z.Correct σ.inputs.length) (fun ρ => e.bv ρ e.bits = addr) facts) :=
    (Yields.of_total (addValue_records hb h he hinside haddr)).mono fun _ => Extends.recorded
  unfold addAddr
  cases hc : e.isConcrete with
  | true => exact .ret (h.recorded_of_concrete (bv_of_isConcrete hc haddr))
  | false =>
      cases hinterested : S.solver.last_interested_ with
      | false => exact hrecord h
      | true =>
          have hsat : Yields (body σ) ok (S.solver.reset.syncConstraints b z S.ranges e) fun s =>
              z.Correct σ.inputs.length →
                ∃ m, z.check s.solver_.checks s.solver_.assertions = .sat m := by
            by_cases hz : z.Correct σ.inputs.length
            · exact (Yields.of_total (syncConstraints_sat hb h hz)).mono fun _ hm _ => hm
            · exact (Yields.any _).mono fun _ _ hz' => absurd hz' hz
          have hreset : Solver.Quiet S.solver S.solver.reset := .of_forest rfl rfl rfl rfl
          refine (Solver.syncConstraints_quiet.and hsat).bind ?_
          rintro s ⟨hquiet, hsat⟩
          have hchecked : Solver.Quiet S.solver (s.check z).2 :=
            (hreset.trans hquiet).trans (.of_forest rfl rfl rfl rfl)
          have hanswer : (s.check z).1 = z.check s.solver_.checks s.solver_.assertions := rfl
          rw [← hanswer] at hsat
          generalize s.check z = answer at hchecked hsat
          obtain ⟨res, s'⟩ := answer
          have hgiveUp (hres : ∀ m, res ≠ .sat m) :
              Yields (body σ) ok (.ret { S with solver := s' } : Build SolverState) (Recorded σ
                (z.Correct σ.inputs.length) (fun ρ => e.bv ρ e.bits = addr) facts) := by
            refine .ret ⟨facts, nodes, fun ρ => ⟨And.left, fun hρ => ⟨hρ, fun hz => ?_⟩⟩,
              h.quiet hchecked⟩
            obtain ⟨m, hm⟩ := hsat hz
            exact absurd hm (hres m)
          cases res with
          | sat m =>
              refine (Solver.attempt_quiet fun s hs => hchecked.trans (.solveBounds hs)).bind ?_
              exact fun solver hsolver => hrecord (h.quiet hsolver)
          | unsat => exact hgiveUp nofun
          | unknown => exact hgiveUp nofun

theorem serve_records (hb : Transparent σ ok b) (h : Records σ facts nodes [] S)
    (hq : q.Truthful σ) :
    Yields (body σ) ok (S.serve b z T fuel q)
      (Recorded σ (q.isAddr = true → z.Correct σ.inputs.length) q.fact facts) := by
  obtain ⟨hfact, hshape⟩ := hq
  cases q with
  | addJcc e taken pc =>
      obtain ⟨he, hinside, hcore⟩ := hshape
      exact addJcc_records hb h he hinside hcore hfact
  | addAddr e addr =>
      obtain ⟨he, hinside⟩ := hshape
      refine (addAddr_records hb h he hinside hfact).mono ?_
      rintro S' ⟨facts', nodes', hlearns, hrecords⟩
      exact ⟨facts', nodes', fun ρ => ⟨(hlearns ρ).1, fun hρ =>
        ⟨((hlearns ρ).2 hρ).1, fun hsure => ((hlearns ρ).2 hρ).2 (hsure rfl)⟩⟩, hrecords⟩
  | addValue o e val =>
      obtain ⟨he, hinside⟩ := hshape
      exact (Yields.of_total (addValue_records hb h he hinside hfact)).mono fun _ =>
        Extends.recorded
  | solveAll o e val =>
      obtain ⟨he, hinside, -⟩ := hshape
      refine Solver.solveAll_quiet.bind fun solver hquiet => ?_
      exact (Yields.of_total (addValue_records hb (h.quiet hquiet) he hinside hfact)).mono
        fun _ => Extends.recorded
  | visitBasicBlock | visitCall | visitRet =>
      exact .ret (h.recorded_of_concrete fun _ => trivial)

theorem records_new (σ : Session) (out_dir bitmap : String) (file : File) :
    Records σ (fun _ => True) [] [] (new σ.inputs out_dir bitmap file) where
  sorted := DependencyForest.sorted_empty
  inputs := rfl
  recordable := nofun
  ranged _ _ h := absurd rfl h
  admits _ _ _ _ _ h := nomatch h
  truth _ _ _ h := nomatch h
  complete _ _ := trivial
  input := trivial

/-- Over a run the facts of its requests are recorded. -/
theorem serveAll_records (hb : Transparent σ ok b) {requests : List (Request Reg)}
    (hq : ∀ q ∈ requests, q.Truthful σ) (h : Records σ facts nodes [] S) :
    Yields (body σ) ok (S.serveAll b z T fuel requests) fun S' => ∃ facts' nodes',
      Records σ facts' nodes' [] S' ∧
      (∀ ρ, facts ρ → (∀ q ∈ requests, q.fact ρ) → facts' ρ) ∧
      ∀ ρ, facts' ρ → facts ρ ∧
        ∀ q ∈ requests, (q.isAddr = true → z.Correct σ.inputs.length) → q.fact ρ := by
  induction requests generalizing facts nodes S with
  | nil => exact .ret ⟨facts, nodes, h, fun _ hρ _ => hρ, fun _ hρ => ⟨hρ, nofun⟩⟩
  | cons q requests ih =>
      obtain ⟨hq, hrest⟩ := List.forall_mem_cons.1 hq
      refine (serve_records hb h hq).bind ?_
      rintro S₁ ⟨facts₁, nodes₁, hlearns, h₁⟩
      refine (ih hrest h₁).mono ?_
      rintro S' ⟨facts', nodes', hrecords, hall, hsound⟩
      refine ⟨facts', nodes', hrecords, fun ρ hρ hfacts => ?_, fun ρ hρ => ?_⟩
      · obtain ⟨hfact, hfacts⟩ := List.forall_mem_cons.1 hfacts
        exact hall ρ ((hlearns ρ).1 ⟨hρ, hfact⟩) hfacts
      · obtain ⟨hfacts₁, hlater⟩ := hsound ρ hρ
        obtain ⟨hfacts, hfact⟩ := (hlearns ρ).2 hfacts₁
        exact ⟨hfacts, List.forall_mem_cons.2 ⟨hfact, hlater⟩⟩

end SolverState

end Qsym
