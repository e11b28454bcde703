import Qsym.Solver.Explore
import Qsym.Solver.Slice

/-!
# Qsym.Solver.Generate

The **test cases** of a run. Turning a jump around puts out one test case that stays on the path so
far and takes the jump the other way, if there is one; if not, one that takes it the other way on
whatever path; and none if the jump cannot be taken the other way at all (`Negates`). Over a run
these are the test cases of the interesting jumps (`serveAll_explores`).

Slicing needs one more promise of Z3, that a model interprets nothing but what the assertions
mention (`Z3.Confined`). Any correct solver can be made to keep it (`Z3.Correct.confine`).
-/

namespace Qsym

open Procedure Smt

namespace Z3

/-- A model interprets only bytes that the assertions mention. -/
def Confined (z : Z3) : Prop :=
  ∀ k terms m, z.check k terms = .sat m → ∀ c ∈ m.consts, ∃ t ∈ terms, ∃ x ∈ t.symbols, x.1 = c.1

/-- Drop from the models what the assertions do not mention. -/
def confine (z : Z3) : Z3 where
  check k terms := match z.check k terms with
    | .sat m => .sat { m with
        consts := m.consts.filter fun c => terms.any fun t => t.symbols.any fun x => x.1 == c.1 }
    | answer => answer
  simplify := z.simplify

variable {z : Z3} {size k : Nat} {terms : List Term} {m : Z3Model}

theorem confine_sat (h : z.confine.check k terms = .sat m) : ∃ m', z.check k terms = .sat m' ∧
    m.consts = m'.consts.filter fun c => terms.any fun t => t.symbols.any fun x => x.1 == c.1 := by
  simp only [confine] at h
  split at h
  next m' hm' =>
      cases h
      exact ⟨m', hm', rfl⟩
  next hne => exact absurd h (hne m)

theorem confine_confined (z : Z3) : z.confine.Confined := by
  intro k terms m h c hc
  obtain ⟨m', -, hconsts⟩ := confine_sat h
  rw [hconsts] at hc
  simpa using (List.mem_filter.1 hc).2

open Classical in
/-- What is dropped does not matter to the assertions. -/
theorem Correct.confine (hz : z.Correct size) : z.confine.Correct size where
  sat {k terms m} hterms h := by
    obtain ⟨m', hm', hconsts⟩ := confine_sat h
    obtain ⟨hnodup, hlt, hholds⟩ := hz.sat hterms hm'
    have hsub : ∀ c ∈ m.consts, c ∈ m'.consts := fun c hc =>
      (List.mem_filter.1 (hconsts ▸ hc)).1
    refine ⟨?_, fun c hc => hlt c (hsub c hc), fun ρ hfits => ?_⟩
    · rw [hconsts]
      exact hnodup.sublist (List.filter_sublist.map _)
    · -- put the dropped numbers back: the assertions do not see them
      have hfits' : m'.Fits fun i => if h : ∃ c ∈ m'.consts, c.1 = i then BitVec.ofNat 8 h.choose.2
          else ρ i := by
        intro c hc
        have hex : ∃ c' ∈ m'.consts, c'.1 = c.1 := ⟨c, hc, rfl⟩
        show (if h : ∃ c' ∈ m'.consts, c'.1 = c.1 then BitVec.ofNat 8 h.choose.2 else ρ c.1) = _
        rw [dif_pos hex]
        rw [List.inj_on_of_nodup_map hnodup hex.choose_spec.1 hc hex.choose_spec.2]
      refine fun t ht => (Term.eval_congr fun x hx => ?_).trans (hholds _ hfits' t ht)
      show Expr.symbols ρ x.1 x.2 = Expr.symbols _ x.1 x.2
      rw [Expr.symbols, Expr.symbols]
      split
      next hex =>
          have hmem : hex.choose ∈ m.consts := by
            rw [hconsts]
            refine List.mem_filter.2 ⟨hex.choose_spec.1, ?_⟩
            simp only [List.any_eq_true, beq_iff_eq]
            exact ⟨t, ht, x, hx, hex.choose_spec.2.symm⟩
          rw [← hfits _ hmem, hex.choose_spec.2]
      next => rfl
  unsat {k terms} hterms h := by
    simp only [Z3.confine] at h
    split at h
    next => cases h
    next => exact hz.unsat hterms h
  decides {k terms} hterms h := by
    simp only [Z3.confine] at h
    split at h
    next => cases h
    next => exact hz.decides hterms h
  simplify_eval := hz.simplify_eval
  simplify_symbols := hz.simplify_symbols

end Z3

namespace Solver

variable {z : Z3} {s : Solver}

/-- One check of a solver that is confined. -/
theorem checkAndSave_confined (hz : z.Correct s.inputs_.length) (hconf : z.Confined)
    (hs : s.OverInput)
    (suffix : String) :
    (∃ m case s', s.checkAndSave z suffix = some (true, s') ∧ s'.saved = s.saved ++ [case] ∧
        s'.inputs_ = s.inputs_ ∧ m.Models s.solver_.assertions ∧
          (s.check z).2.solver_.model = some m ∧
        (s.check z).2.getConcreteValues = some case.values) ∨
      ∃ s', s.checkAndSave z suffix = some (false, s') ∧ s'.saved = s.saved ∧
        s'.inputs_ = s.inputs_ ∧
        ∀ ρ, ¬ Holds ρ s.solver_.assertions := by
  cases hcheck : z.check s.solver_.checks s.solver_.assertions with
  | unknown => exact absurd hcheck (hz.decides hs)
  | unsat =>
      refine .inr ⟨(s.check z).2, ?_, rfl, rfl, hz.unsat hs hcheck⟩
      simp [checkAndSave, check, Z3Solver.check, hcheck]
  | sat m =>
      obtain ⟨hnodup, -, hholds⟩ := hz.sat hs hcheck
      have hmodel : (s.check z).2.solver_.model = some m := by
        simp [check, Z3Solver.check, hcheck]
      have hmodels : m.Models s.solver_.assertions := ⟨hnodup, hconf _ _ _ hcheck, hholds⟩
      obtain ⟨values, hvalues, -⟩ :=
        getConcreteValues_of_models (s := (s.check z).2) hs hmodel hmodels
      obtain ⟨file, s', hsave, hputs, -⟩ := saveValues_puts hvalues suffix
      refine .inl ⟨m, ⟨file, values⟩, s', ?_, hputs.saved, hputs.inputs, hmodels, hmodel, hvalues⟩
      simp only [check, Z3Solver.check, hcheck] at hsave
      simp [checkAndSave, check, Z3Solver.check, hcheck, hsave]

end Solver

/-- The test cases for a condition that is turned around behind `facts`. -/
inductive Negates (size : Nat) (facts turned : Input → Prop) : List TestCase → Prop
  /-- On the path. -/
  | sat {case : TestCase} : case.values.length = size → facts (inputOf case.values) →
      turned (inputOf case.values) → Negates size facts turned [case]
  /-- Off the path, as none is on it. -/
  | optimistic {case : TestCase} : (∀ ρ, facts ρ → ¬ turned ρ) → case.values.length = size →
      turned (inputOf case.values) → Negates size facts turned [case]
  | unsat : (∀ ρ, ¬ turned ρ) → Negates size facts turned []

/-- If there are inputs on the path, the test case is one. -/
theorem Negates.on_path {size : Nat} {facts turned : Input → Prop} {cases : List TestCase}
    (h : Negates size facts turned cases) (hon : ∃ ρ, facts ρ ∧ turned ρ) :
    ∃ case, cases = [case] ∧ case.values.length = size ∧ facts (inputOf case.values) ∧
      turned (inputOf case.values) := by
  obtain ⟨ρ, hfacts, hturned⟩ := hon
  cases h with
  | sat hlength hcase hcase' => exact ⟨_, rfl, hlength, hcase, hcase'⟩
  | optimistic hnone => exact absurd hturned (hnone ρ hfacts)
  | unsat hnone => exact absurd hturned (hnone ρ)

namespace SolverState

variable {σ : Session} {ok : MethodCall → Prop} {b : ExprBuilder} {z : Z3} {S : SolverState}
  {facts : Input → Prop} {nodes : List Expr} {e : Expr} {taken : Bool}

open Solver

/-- **A condition is turned around.** -/
theorem negatePath_negates (hb : Transparent σ ok b) (hz : z.Correct σ.inputs.length)
    (hconf : z.Confined) (h : Records σ facts nodes [] S) (he : e.IsBool)
    (hcore : e.core.isRelational = true) (hinside : ∀ i ∈ e.getDeps, i < σ.inputs.length) :
    Builds σ ok (S.solver.negatePath b z S.ranges e taken) fun s' => Quiet S.solver s' ∧
      ∃ cases, s'.saved = S.solver.saved ++ cases ∧
        Negates σ.inputs.length facts (fun ρ => e.truth ρ = !taken) cases := by
  refine Total.yields ?_ negatePath_quiet |>.mono fun _ => And.symm
  unfold negatePath
  refine Total.bind (syncConstraints_sliced hb hz h) fun s hs => ?_
  refine Total.bind (addToSolver_sliced hb hz h hs he hcore hinside) fun s₁ hs₁ => ?_
  have hinputs : s₁.inputs_ = σ.inputs := hs₁.1.puts.inputs.trans h.inputs
  have hsaved : s₁.saved = S.solver.saved := hs₁.1.puts.saved.trans (List.append_nil _)
  rcases checkAndSave_confined (hinputs ▸ hz) hconf hs₁.1.overInput "" with
    ⟨m, case, s₂, hcheck, hsaved₂, -, hmodels, hmodel, hvalues⟩
      | ⟨s₂, hcheck, hsaved₂, hinputs₂, hnone⟩
  · rw [hcheck]
    obtain ⟨values, hvalues', hlength, hfacts, hturned⟩ :=
      (hs₁.of_solver _ _).models (s := { s₁ with solver_ := (s₁.check z).2.solver_ })
        h hmodel hmodels
    obtain rfl := Option.some.inj (hvalues.symm.trans hvalues')
    exact .ret ⟨[case], hsaved ▸ hsaved₂, .sat hlength hfacts hturned⟩
  · rw [hcheck]
    show Builds σ ok (s₂.reset.addToSolver b z e (!taken) >>= _) _
    have hoff (ρ : Input) (hρ : facts ρ) : ¬ e.truth ρ = !taken := fun hturned =>
      hnone ρ ((hs₁.1.holds ρ trivial).2 ⟨h.satisfies hρ, hturned⟩)
    have hinputs₂ : s₂.reset.inputs_ = σ.inputs := hinputs₂.trans hinputs
    have hstart : Solver.Asserts (fun _ => True) s₂.reset (fun _ => True) s₂.reset :=
      .reset _
    have hover : e.Over (· < s₂.reset.inputs_.length) True := by
      rw [hinputs₂]
      exact Expr.over_iff_getDeps.2 hinside
    refine Total.bind (addToSolver_turned hb hstart (hinputs₂ ▸ hz) he hcore hover) fun s₃ hs₃ => ?_
    have hinputs₃ : s₃.inputs_ = σ.inputs := hs₃.puts.inputs.trans hinputs₂
    have hsaved₃ : s₃.saved = S.solver.saved :=
      (hs₃.puts.saved.trans (List.append_nil _)).trans (hsaved₂.trans hsaved)
    rcases checkAndSave_confined (hinputs₃ ▸ hz) hconf hs₃.overInput "optimistic" with
      ⟨m, case, s₄, hcheck, hsaved₄, -, hmodels, hmodel, hvalues⟩ | ⟨s₄, hcheck, hsaved₄, -, hnone⟩
    · rw [hcheck]
      obtain ⟨values, hvalues', hlength, hholds, -⟩ := getConcreteValues_of_models
        (s := (s₃.check z).2) hs₃.overInput hmodel hmodels
      obtain rfl := Option.some.inj (hvalues.symm.trans hvalues')
      refine .ret ⟨[case], hsaved₃ ▸ hsaved₄,
        .optimistic hoff ?_ ((hs₃.holds _ trivial).1 hholds).2⟩
      exact hlength.trans (congrArg List.length hinputs₃)
    · rw [hcheck]
      refine .ret ⟨[], (hsaved₄.trans hsaved₃).trans (List.append_nil _).symm,
        .unsat fun ρ hρ => ?_⟩
      exact hnone ρ ((hs₃.holds ρ trivial).2 ⟨trivial, hρ⟩)

/-! ### What a request puts out -/

/-- From `S` to `S'` the solver has put out `new`, and heard of no jump. -/
structure PutsOut (S S' : SolverState) (new : List TestCase) : Prop where
  trace_ : S'.trace_ = S.trace_
  interested : S'.solver.last_interested_ = S.solver.last_interested_
  saved : S'.solver.saved = S.solver.saved ++ new

theorem OnlyRecords.putsOut {S S' : SolverState} (h : OnlyRecords S S') : PutsOut S S' [] := by
  obtain ⟨F, ranges, rfl⟩ := h
  exact ⟨rfl, rfl, (List.append_nil _).symm⟩

theorem PutsOut.after {S S' : SolverState} {new : List TestCase} {solver : Solver}
    (h : PutsOut { S with solver } S' new) (hquiet : Quiet S.solver solver) :
    ∃ new', PutsOut S S' new' := by
  obtain ⟨cases, hcases⟩ := hquiet.saved
  refine ⟨cases ++ new, h.trace_, h.interested.trans hquiet.interested, ?_⟩
  rw [h.saved, ← List.append_assoc, hcases]

variable {Reg : Type} {T : Tracer} {fuel : Nat} {q : Request Reg}

section Steps

variable (hb : Transparent σ ok b) (h : Records σ facts nodes [] S)
  (hinside : ∀ i ∈ e.getDeps, i < σ.inputs.length)
include hb h hinside

theorem addValue_putsOut {val : BitVec e.bits} (he : e.IsBV e.bits)
    (hval : e.bv σ.input e.bits = val) :
    Yields (body σ) ok (S.addValue b e val) fun S' => PutsOut S S' [] :=
  (Yields.of_total (addValue_records hb h he hinside hval)).mono fun _ hS' => hS'.1.putsOut

theorem addAddr_putsOut {addr : BitVec e.bits} (he : e.IsBV e.bits)
    (haddr : e.bv σ.input e.bits = addr) :
    Yields (body σ) ok (S.addAddr b z e addr fuel) fun S' =>
      ∃ new, PutsOut S S' new ∧ (S.solver.last_interested_ = false → new = []) := by
  unfold addAddr
  cases hc : e.isConcrete with
  | true => exact .ret ⟨[], (OnlyRecords.refl S).putsOut, fun _ => rfl⟩
  | false =>
      cases hinterested : S.solver.last_interested_ with
      | false =>
          exact (addValue_putsOut hb h hinside he haddr).mono fun _ hS' => ⟨[], hS', fun _ => rfl⟩
      | true =>
          have hreset : Quiet S.solver S.solver.reset := .of_forest rfl rfl rfl rfl
          refine syncConstraints_quiet.bind fun s hquiet => ?_
          have hchecked : Quiet S.solver (s.check z).2 :=
            (hreset.trans hquiet).trans (.of_forest rfl rfl rfl rfl)
          generalize s.check z = answer at hchecked
          obtain ⟨res, s'⟩ := answer
          cases res with
          | sat m =>
              refine (attempt_quiet fun s hs => hchecked.trans (.solveBounds hs)).bind
                fun solver hsolver => ?_
              refine (addValue_putsOut hb (h.quiet hsolver) hinside he haddr).mono fun S' hS' => ?_
              obtain ⟨new, hnew⟩ := hS'.after hsolver
              exact ⟨new, hnew, nofun⟩
          | unsat | unknown =>
              obtain ⟨new, hnew⟩ :=
                (OnlyRecords.refl { S with solver := s' }).putsOut.after hchecked
              exact .ret ⟨new, hnew, nofun⟩

theorem solveAll_putsOut {val : BitVec e.bits} (he : e.IsBV e.bits)
    (hval : e.bv σ.input e.bits = val) :
    Yields (body σ) ok (S.solveAll b z e val fuel) fun S' =>
      ∃ new, PutsOut S S' new ∧ (S.solver.last_interested_ = false → new = []) := by
  unfold solveAll
  cases hinterested : S.solver.last_interested_ with
  | false =>
      rw [Solver.solveAll, if_neg (by simp [hinterested])]
      exact (addValue_putsOut hb h hinside he hval).mono fun _ hS' => ⟨[], hS', fun _ => rfl⟩
  | true =>
      refine solveAll_quiet.bind fun solver hsolver => ?_
      refine (addValue_putsOut hb (h.quiet hsolver) hinside he hval).mono fun S' hS' => ?_
      obtain ⟨new, hnew⟩ := hS'.after hsolver
      exact ⟨new, hnew, by rintro ⟨⟩⟩

end Steps

end SolverState

/-! ### Runs -/

namespace Request

variable {Reg : Type}

/-- Whether other inputs are looked for from a request on, and the maps after it: a symbolic jump
asks the maps, and the answer stands until the next one. -/
def asks (T : Tracer) (trace_ : Campaign) (last : Bool) : Request Reg → Option (Bool × Campaign)
  | addJcc e taken pc =>
      if e.isConcrete ∨ BitVec.ofNat 64 pc = 0 then some (last, trace_)
      else trace_.step T (.branch (BitVec.ofNat 64 pc) taken)
  | _ => some (last, trace_)

/-- The values of an expression may be searched at the request. -/
def searches : Request Reg → Bool
  | addAddr .. | solveAll .. => true
  | _ => false

/-- The test cases that a request behind `facts` puts out. What is found for an address or for a
jump target is not described. -/
def Generates (size : Nat) (facts : Input → Prop) (interesting : Bool) :
    Request Reg → List TestCase → Prop
  | addJcc e taken _, cases =>
      if e.isConcrete = false ∧ interesting = true then
        Negates size facts (fun ρ => e.truth ρ = !taken) cases
      else cases = []
  | addAddr _ _, cases | solveAll _ _ _, cases => interesting = false → cases = []
  | _, cases => cases = []

end Request

/-- The test cases of a run, request by request. -/
def Generates {Reg : Type} (size : Nat) (T : Tracer) : (facts : Input → Prop) →
    (trace_ : Campaign) →
    (last : Bool) → List (Request Reg) → List TestCase → Prop
  | _, _, _, [], cases => cases = []
  | facts, trace_, last, q :: requests, cases => ∃ interesting trace' new later,
      q.asks T trace_ last = some (interesting, trace') ∧ cases = new ++ later ∧
        q.Generates size facts interesting new ∧
        Generates size T (fun ρ => facts ρ ∧ q.fact ρ) trace' interesting requests later

namespace SolverState

variable {Reg : Type} {σ : Session} {b : ExprBuilder} {z : Z3} {S S' : SolverState} {T : Tracer}
  {facts : Input → Prop} {nodes : List Expr} {e : Expr} {taken : Bool} {fuel : Nat}
    {q : Request Reg}

open Solver

/-- What one request does: it is recorded, and puts out its test cases. -/
structure Steps (σ : Session) (z : Z3) (T : Tracer) (facts : Input → Prop) (S : SolverState)
    (q : Request Reg)
    (S' : SolverState) : Prop where
  records : ∃ nodes, Records σ (fun ρ => facts ρ ∧ q.fact ρ) nodes [] S'
  asks : q.asks T S.trace_ S.solver.last_interested_ = some (S'.solver.last_interested_, S'.trace_)
  generates : ∃ new, S'.solver.saved = S.solver.saved ++ new ∧
    (z.Confined → q.Generates σ.inputs.length facts S'.solver.last_interested_ new)

theorem isInterestingJcc_answer {pc : Addr} {interesting : Bool}
    (hanswer : (if pc = 0 then some (S.solver.last_interested_, S)
      else S.isInterestingJcc T taken pc) =
      some (interesting, S')) :
    (if pc = 0 then some (S.solver.last_interested_, S.trace_)
      else S.trace_.step T (.branch pc taken)) = some (interesting, S'.trace_) ∧
    S' =
      { S with
        trace_ := S'.trace_, solver := { S.solver with last_interested_ := interesting } } := by
  split at hanswer
  next h0 =>
      obtain ⟨rfl, rfl⟩ := Prod.mk.inj (Option.some.inj hanswer)
      exact ⟨if_pos h0, rfl⟩
  next h0 =>
      obtain ⟨x, hx, hanswer⟩ := Option.bind_eq_some_iff.1 hanswer
      obtain ⟨rfl, rfl⟩ := Prod.mk.inj (Option.some.inj hanswer)
      exact ⟨(if_neg h0).trans hx, rfl⟩

theorem addJcc_steps {ok : MethodCall → Prop} (hb : Transparent σ ok b)
    (hz : z.Correct σ.inputs.length)
    (h : Records σ facts nodes [] S) {pc : Nat} (he : e.IsBool)
    (hinside : ∀ i ∈ e.getDeps, i < σ.inputs.length)
    (hcore : e.isConcrete = false → e.core.isRelational = true) (htaken : e.truth σ.input = taken) :
    Yields (body σ) ok (S.addJcc b z T e taken (BitVec.ofNat 64 pc))
      (Steps σ z T facts S (.addJcc e taken pc : Request Reg)) := by
  cases hc : e.isConcrete with
  | true =>
      rw [addJcc_concrete hc]
      have hfact (ρ : Input) : e.truth ρ = taken := by
        rw [← htaken, Expr.truth, Expr.value_of_isConcrete hc ρ σ.input, Expr.truth]
      refine .ret ⟨⟨nodes, h.congr fun ρ => (and_iff_left (hfact ρ)).symm⟩, ?_, [],
        (List.append_nil _).symm, ?_⟩
      · simp [Request.asks, hc]
      · simp [Request.Generates, hc]
  | false =>
      rw [addJcc_symbolic hc (hcore hc)]
      unfold addRelational
      cases hanswer : (if BitVec.ofNat 64 pc = 0 then some (S.solver.last_interested_, S)
          else S.isInterestingJcc T taken (BitVec.ofNat 64 pc)) with
      | none => exact .stop
      | some answer =>
          obtain ⟨interesting, S₁⟩ := answer
          have h₁ := h.isInterestingJcc hanswer
          obtain ⟨hasks, hS₁⟩ := isInterestingJcc_answer hanswer
          have hlast : S₁.solver.last_interested_ = interesting := by rw [hS₁]
          have hsaved : S₁.solver.saved = S.solver.saved := by rw [hS₁]
          have hadd (S₂ : SolverState) {S₃ : SolverState} (new : List TestCase)
              (htrace : S₂.trace_ = S₁.trace_)
              (hlast₂ : S₂.solver.last_interested_ = interesting)
              (hsaved₂ : S₂.solver.saved = S.solver.saved ++ new)
              (hnew : z.Confined →
                (.addJcc e taken pc : Request Reg).Generates σ.inputs.length facts
                interesting new)
              (h₃ : Extends σ S₂ (fun ρ => facts ρ ∧ e.truth ρ = taken) S₃) :
              Steps σ z T facts S (.addJcc e taken pc : Request Reg) S₃ := by
            obtain ⟨honly, hrecords⟩ := h₃
            have hput := honly.putsOut
            have hlast₃ := hput.interested.trans hlast₂
            refine ⟨hrecords, ?_, new, ?_, hlast₃ ▸ hnew⟩
            · rw [hlast₃, hput.trace_, htrace, ← hasks]
              simp [Request.asks, hc]
            · rw [hput.saved, hsaved₂, List.append_nil]
          cases interesting with
          | false =>
              refine (Yields.of_total
                (addConstraint_records hb h₁ he hinside htaken (hcore hc))).mono
                fun S₃ => hadd S₁ [] rfl hlast (hsaved.trans (List.append_nil _).symm) ?_
              simp [Request.Generates]
          | true =>
              show Yields (body σ) ok (do
                let solver ← S₁.solver.negatePath b z S₁.ranges e taken
                { S₁ with solver }.addConstraint b e taken) _
              have hnegate : Yields (body σ) ok (S₁.solver.negatePath b z S₁.ranges e taken)
                  fun s' =>
                  Quiet S₁.solver s' ∧ ∃ cases, s'.saved = S₁.solver.saved ++ cases ∧
                    (z.Confined →
                      Negates σ.inputs.length facts (fun ρ => e.truth ρ = !taken) cases) := by
                by_cases hconf : z.Confined
                · refine (Yields.of_total
                    (negatePath_negates hb hz hconf h₁ he (hcore hc) hinside)).mono ?_
                  rintro s' ⟨hquiet, cases, hcases, hnew⟩
                  exact ⟨hquiet, cases, hcases, fun _ => hnew⟩
                · refine negatePath_quiet.mono fun s' hquiet => ?_
                  obtain ⟨cases, hcases⟩ := hquiet.saved
                  exact ⟨hquiet, cases, hcases.symm, fun h => absurd h hconf⟩
              refine hnegate.bind ?_
              rintro solver ⟨hquiet, cases, hcases, hnegates⟩
              refine (Yields.of_total (addConstraint_records hb (h₁.quiet hquiet) he hinside htaken
                (hcore hc))).mono fun S₃ => hadd { S₁ with solver } cases rfl
                  (hquiet.interested.trans hlast) (hsaved ▸ hcases) ?_
              intro hconf
              rw [Request.Generates, if_pos ⟨hc, rfl⟩]
              exact hnegates hconf

theorem serve_steps {ok : MethodCall → Prop} (hb : Transparent σ ok b)
    (hz : z.Correct σ.inputs.length)
    (h : Records σ facts nodes [] S) (hq : q.Truthful σ) :
    Yields (body σ) ok (S.serve b z T fuel q) (Steps σ z T facts S q) := by
  have hrecords : Yields (body σ) ok (S.serve b z T fuel q) fun S' =>
      ∃ nodes, Records σ (fun ρ => facts ρ ∧ q.fact ρ) nodes [] S' := by
    refine (serve_records hb h hq).mono ?_
    rintro S' ⟨facts', nodes', hlearns, hrecords⟩
    refine ⟨nodes', hrecords.congr fun ρ => ⟨fun hρ => ?_, (hlearns ρ).1⟩⟩
    exact ((hlearns ρ).2 hρ).imp_right fun hsure => hsure fun _ => hz
  -- a request that asks for no jump
  have hother (hasks : q.asks T S.trace_ S.solver.last_interested_ =
      some (S.solver.last_interested_, S.trace_))
      (hputs : Yields (body σ) ok (S.serve b z T fuel q) fun S' =>
        ∃ new, PutsOut S S' new ∧ q.Generates σ.inputs.length facts S.solver.last_interested_ new) :
      Yields (body σ) ok (S.serve b z T fuel q) (Steps σ z T facts S q) := by
    refine (hrecords.and hputs).mono ?_
    rintro S' ⟨hrecords, new, ⟨htrace, hinterested, hsaved⟩, hnew⟩
    exact ⟨hrecords, by rw [htrace, hinterested, hasks], new, hsaved, fun _ => hinterested ▸ hnew⟩
  obtain ⟨hfact, hshape⟩ := hq
  cases q with
  | addJcc e taken pc =>
      obtain ⟨he, hinside, hcore⟩ := hshape
      exact addJcc_steps hb hz h he hinside hcore hfact
  | addAddr e addr =>
      obtain ⟨he, hinside⟩ := hshape
      exact hother rfl (addAddr_putsOut hb h hinside he hfact)
  | addValue o e val =>
      obtain ⟨he, hinside⟩ := hshape
      exact hother rfl ((addValue_putsOut hb h hinside he hfact).mono fun S' hS' => ⟨[], hS', rfl⟩)
  | solveAll o e val =>
      obtain ⟨he, hinside, -⟩ := hshape
      exact hother rfl (solveAll_putsOut hb h hinside he hfact)
  | visitBasicBlock | visitCall | visitRet =>
      exact hother rfl (.ret ⟨[], (OnlyRecords.refl S).putsOut, rfl⟩)

/-- The test cases of a run, from any state of the solver. -/
theorem serveAll_generates {ok : MethodCall → Prop} (hb : Transparent σ ok b)
    (hz : z.Correct σ.inputs.length) (hconf : z.Confined) {requests : List (Request Reg)}
    (hq : ∀ q ∈ requests, q.Truthful σ) (h : Records σ facts nodes [] S) :
    Yields (body σ) ok (S.serveAll b z T fuel requests) fun S' =>
      ∃ cases, S'.solver.saved = S.solver.saved ++ cases ∧
        Generates σ.inputs.length T facts S.trace_ S.solver.last_interested_ requests cases := by
  induction requests generalizing facts nodes S with
  | nil => exact .ret ⟨[], (List.append_nil _).symm, rfl⟩
  | cons q requests ih =>
      obtain ⟨hq, hrest⟩ := List.forall_mem_cons.1 hq
      refine (serve_steps hb hz h hq).bind ?_
      rintro S₁ ⟨⟨nodes₁, h₁⟩, hasks, new, hnew, hgenerates⟩
      refine (ih hrest h₁).mono ?_
      rintro S' ⟨later, hlater, hall⟩
      refine ⟨new ++ later, ?_, _, _, new, later, hasks, rfl, hgenerates hconf, hall⟩
      rw [hlater, hnew, List.append_assoc]

/-! ### Runs that return -/

/-- In every image a jump is asked about and answered. -/
theorem step_branch_isSome (hT : ∀ pc, (T.image pc).isSome = true) (trace_ : Campaign) (pc : Addr)
    (taken : Bool) : ∃ x, trace_.step T (.branch pc taken) = some x := by
  have hhash (pc : Addr) (taken : Bool) : ∃ h, T.hashPc pc taken = some h := by
    obtain ⟨img, himg⟩ := Option.isSome_iff_exists.1 (hT pc)
    exact ⟨_, by rw [Tracer.hashPc, himg]; rfl⟩
  obtain ⟨h, hh⟩ := hhash pc taken
  obtain ⟨inv_h, hinv⟩ := hhash pc !taken
  have hbranch : (trace_.map.isInterestingBranch T pc taken trace_.file).isSome = true := by
    unfold AflTraceMap.isInterestingBranch
    simp only [hh, hinv, Option.bind_eq_bind, Option.bind_some]
    split
    · rfl
    · split <;> rfl
  obtain ⟨x, hx⟩ := Option.isSome_iff_exists.1 hbranch
  exact ⟨_, by simp only [Campaign.step, hx, Option.bind_eq_bind, Option.bind_some]; rfl⟩

/-- A solver that decides returns from turning a condition around. -/
theorem negatePath_returns {ok : MethodCall → Prop} (hb : Transparent σ ok b)
    (hz : z.Correct σ.inputs.length) (h : Records σ facts nodes [] S) (he : e.IsBool)
    (hcore : e.core.isRelational = true) (hinside : ∀ i ∈ e.getDeps, i < σ.inputs.length) :
    Builds σ ok (S.solver.negatePath b z S.ranges e taken) (Quiet S.solver) := by
  have hchecks {s : Solver} (hs : s.OverInput) (hinputs : s.inputs_ = σ.inputs) (suffix : String) :
      ∃ sat s', s.checkAndSave z suffix = some (sat, s') ∧ s'.inputs_ = σ.inputs := by
    rcases checkAndSave_cases (hinputs ▸ hz) hs suffix with ⟨_, _, s', hcheck, hfound⟩ |
      ⟨s', hcheck, -, -, hputs⟩
    · exact ⟨_, s', hcheck, hfound.puts.inputs.trans hinputs⟩
    · exact ⟨_, s', hcheck, hputs.inputs.trans hinputs⟩
  refine Total.yields (P := fun _ => True) ?_ negatePath_quiet |>.mono fun _ => And.right
  unfold negatePath
  refine Total.bind (syncConstraints_sliced hb hz h) fun s hs => ?_
  refine Total.bind (addToSolver_sliced hb hz h hs he hcore hinside) fun s₁ hs₁ => ?_
  have hinputs : s₁.inputs_ = σ.inputs := hs₁.1.puts.inputs.trans h.inputs
  obtain ⟨sat, s₂, hcheck, hinputs₂⟩ := hchecks hs₁.1.overInput hinputs ""
  rw [hcheck]
  cases sat with
  | true => exact .ret trivial
  | false =>
      show Builds σ ok (s₂.reset.addToSolver b z e (!taken) >>= _) _
      have hstart : Solver.Asserts (fun _ => True) s₂.reset (fun _ => True) s₂.reset :=
        .reset _
      have hover : e.Over (· < s₂.reset.inputs_.length) True :=
        Expr.over_iff_getDeps.2 (congrArg List.length hinputs₂ ▸ hinside)
      have hz₂ : z.Correct s₂.reset.inputs_.length := congrArg List.length hinputs₂ ▸ hz
      refine Total.bind (addToSolver_turned hb hstart hz₂ he hcore hover) fun s₃ hs₃ => ?_
      obtain ⟨_, s₄, hcheck, -⟩ :=
        hchecks hs₃.overInput (hs₃.puts.inputs.trans hinputs₂) "optimistic"
      rw [hcheck]
      exact .ret trivial

/-- A jump or a value is served. -/
theorem serve_returns {ok : MethodCall → Prop} (hb : Transparent σ ok b)
    (hz : z.Correct σ.inputs.length) (hT : ∀ pc, (T.image pc).isSome = true)
    (hq : q.Truthful σ) (hplain : q.searches = false) (h : Records σ facts nodes [] S) :
    Builds σ ok (S.serve b z T fuel q) fun _ => True := by
  obtain ⟨hfact, hshape⟩ := hq
  cases q with
  | addAddr | solveAll => cases hplain
  | addValue o e val =>
      obtain ⟨he, hinside⟩ := hshape
      exact (addValue_records hb h he hinside hfact).mono fun _ _ => trivial
  | visitBasicBlock | visitCall | visitRet => exact .ret trivial
  | addJcc e taken pc =>
      obtain ⟨he, hinside, hcore⟩ := hshape
      have hrecord {S : SolverState} (h : Records σ facts nodes [] S) (hc : e.isConcrete = false) :
          Builds σ ok (S.addConstraint b e taken) fun _ => True :=
        (addConstraint_records hb h he hinside hfact (hcore hc)).mono fun _ _ => trivial
      show Builds σ ok (S.addJcc b z T e taken (BitVec.ofNat 64 pc)) _
      cases hc : e.isConcrete with
      | true =>
          rw [addJcc_concrete hc]
          exact .ret trivial
      | false =>
          rw [addJcc_symbolic hc (hcore hc)]
          unfold addRelational
          have hsome : ∃ x, (if BitVec.ofNat 64 pc = 0 then some (S.solver.last_interested_, S)
              else S.isInterestingJcc T taken (BitVec.ofNat 64 pc)) = some x := by
            obtain ⟨x, hx⟩ := step_branch_isSome hT S.trace_ (BitVec.ofNat 64 pc) taken
            split
            · exact ⟨_, rfl⟩
            · exact ⟨_, by rw [isInterestingJcc, hx]; rfl⟩
          obtain ⟨⟨interesting, S₁⟩, hanswer⟩ := hsome
          have h₁ := h.isInterestingJcc hanswer
          rw [hanswer]
          cases interesting with
          | false => exact hrecord h₁ hc
          | true =>
              show Builds σ ok (do
                let solver ← S₁.solver.negatePath b z S₁.ranges e taken
                { S₁ with solver }.addConstraint b e taken) _
              refine Total.bind (negatePath_returns hb hz h₁ he (hcore hc) hinside) ?_
              exact fun solver hquiet => hrecord (h₁.quiet hquiet) hc

/-- A run of jumps and values returns. -/
theorem serveAll_returns {ok : MethodCall → Prop} (hb : Transparent σ ok b)
    (hz : z.Correct σ.inputs.length) (hT : ∀ pc, (T.image pc).isSome = true)
    {requests : List (Request Reg)} (hq : ∀ q ∈ requests, q.Truthful σ)
    (hplain : ∀ q ∈ requests, q.searches = false) (h : Records σ facts nodes [] S) :
    Builds σ ok (S.serveAll b z T fuel requests) fun _ => True := by
  induction requests generalizing facts nodes S with
  | nil => exact .ret trivial
  | cons q requests ih =>
      obtain ⟨hq, hrest⟩ := List.forall_mem_cons.1 hq
      obtain ⟨hplain, hplains⟩ := List.forall_mem_cons.1 hplain
      refine Total.bind ((serve_returns hb hz hT hq hplain h).yields (serve_records hb h hq)) ?_
      rintro S₁ ⟨-, ⟨facts₁, nodes₁, -, h₁⟩⟩
      exact ih hrest hplains h₁

/-! ### Runs of a new solver -/

/-- The builder prunes nothing: it is the symbolic chain, or everything is interesting. -/
def Unpruned (σ : Session) (b : ExprBuilder) : Prop :=
  b = SymbolicExprBuilder.chain ∨
    b = PruneExprBuilder.chain ∧ ∀ tick, σ.isInteresting tick = true

theorem Unpruned.transparent (hb : Unpruned σ b) : Transparent σ anyCall b := by
  rcases hb with rfl | ⟨rfl, hi⟩
  · exact chain_transparent σ
  · exact prunedChain_transparent hi

variable {requests : List (Request Reg)} {out_dir bitmap : String} {file : File} {w w' : World}

/-- **What a run remembers.** Whatever Z3 answers, the constraints of a new solver at the end of a
run hold for the inputs that satisfy the facts of all requests; and an input for which they hold
satisfies the facts of all requests but those about addresses, and of these too if Z3 never fails to
decide. -/
theorem serveAll_remembers (hb : Unpruned σ b) (hq : ∀ q ∈ requests, q.Truthful σ)
    (hrun : Runs (body σ) ((new σ.inputs out_dir bitmap file).serveAll b z T fuel requests) w S'
      w') :
    ∃ nodes, DependencyForest.Sorted Expr.getDeps S'.solver.dep_forest_ nodes ∧
      (∀ ρ, (∀ q ∈ requests, q.fact ρ) → ∀ e ∈ nodes, NodeHolds S'.ranges e ρ) ∧
      ∀ ρ, (∀ e ∈ nodes, NodeHolds S'.ranges e ρ) →
        ∀ q ∈ requests, (q.isAddr = true → z.Correct σ.inputs.length) → q.fact ρ := by
  obtain ⟨facts', nodes, hrecords, hall, hsound⟩ :=
    (serveAll_records hb.transparent hq (records_new σ out_dir bitmap file)).result hrun
  refine ⟨nodes, hrecords.sorted, fun ρ hρ e he => ?_, fun ρ hρ => ?_⟩
  · exact hrecords.holds (hall ρ trivial hρ) (List.mem_append_left _ he)
  · exact (hsound ρ (hrecords.complete ρ fun e he => hρ e (by simpa using he))).2

/-- Of two zero bytes the first is not less than the second, and the second is zero. -/
def jumpAndValue : List (Request Unit) :=
  [.addJcc (.compare 0 .ult (.read 0) (.read 1)) false 0x400010, .addValue (.reg ()) (.read 1) 0]

theorem jumpAndValue_truthful : ∀ q ∈ jumpAndValue, q.Truthful quietSession := by
  have hless : (Expr.compare 0 .ult (.read 0) (.read 1)).truth quietSession.input =
      false := by decide
  have hzero : (Expr.read 1).bv quietSession.input 8 = BitVec.ofNat 8 0 := by decide
  refine List.forall_mem_cons.2 ⟨⟨hless, ⟨by decide, rfl⟩, by decide, fun _ => rfl⟩, ?_⟩
  exact List.forall_mem_singleton.2 ⟨hzero, isBV_read 1, by decide⟩

theorem jumpAndValue_runs : ∃ S' w', Runs (body quietSession)
    ((new [0, 0] "out" "bitmap" none).serveAll SymbolicExprBuilder.chain (Z3.bruteForce 2).confine
      Campaign.oneImage 0 jumpAndValue) (freshWorld 0) S' w' := by
  have hbuilds : Builds quietSession anyCall ((new [0, 0] "out" "bitmap" none).serveAll
      SymbolicExprBuilder.chain (Z3.bruteForce 2).confine Campaign.oneImage 0 jumpAndValue)
      fun _ => True :=
    serveAll_returns (chain_transparent quietSession)
      (Z3.bruteForce_correct 2).confine (fun _ => rfl)
      jumpAndValue_truthful (by decide) (records_new quietSession "out" "bitmap" none)
  obtain ⟨S', w', hrun, -⟩ := hbuilds (freshWorld 0) trivial fun _ _ => trivial
  exact ⟨S', w', hrun⟩

theorem serveAll_remembers_jumpAndValue : ∃ S' w' nodes,
    Runs (body quietSession) ((new [0, 0] "out" "bitmap" none).serveAll SymbolicExprBuilder.chain
      (Z3.bruteForce 2).confine Campaign.oneImage 0 jumpAndValue) (freshWorld 0) S' w' ∧
    DependencyForest.Sorted Expr.getDeps S'.solver.dep_forest_ nodes ∧
      ∀ ρ, (∀ e ∈ nodes, NodeHolds S'.ranges e ρ) ↔ ∀ q ∈ jumpAndValue, q.fact ρ := by
  obtain ⟨S', w', hrun⟩ := jumpAndValue_runs
  obtain ⟨nodes, hsorted, hholds, hfacts⟩ :=
    serveAll_remembers (.inl rfl) jumpAndValue_truthful hrun
  refine ⟨S', w', nodes, hrun, hsorted, fun ρ => ⟨fun hρ q hq => ?_, hholds ρ⟩⟩
  exact hfacts ρ hρ q hq fun _ => (Z3.bruteForce_correct 2).confine

/-- With a solver that decides, a run has recorded exactly its facts. -/
theorem records_of_run (hb : Unpruned σ b) (hz : z.Correct σ.inputs.length)
    (hq : ∀ q ∈ requests, q.Truthful σ)
    (hrun : Runs (body σ) ((new σ.inputs out_dir bitmap file).serveAll b z T fuel requests) w S'
      w') :
    ∃ nodes, Records σ (fun ρ => ∀ q ∈ requests, q.fact ρ) nodes [] S' := by
  obtain ⟨facts', nodes, hrecords, hall, hsound⟩ :=
    (serveAll_records hb.transparent hq (records_new σ out_dir bitmap file)).result hrun
  refine ⟨nodes, hrecords.congr fun ρ => ⟨fun hρ q hq => ?_, hall ρ trivial⟩⟩
  exact (hsound ρ hρ).2 q hq fun _ => hz

/-- **Slicing is sound**, after any run. The constraints tied to a jump are asserted, and its
condition the other way. Whatever model of this is found, the test case it makes has the size of the
input, satisfies the facts of every request of the run, and takes the jump the other way. -/
theorem serveAll_slices (hb : Unpruned σ b) (hz : z.Correct σ.inputs.length)
    (hq : ∀ q ∈ requests, q.Truthful σ)
    (hrun : Runs (body σ) ((new σ.inputs out_dir bitmap file).serveAll b z T fuel requests) w S' w')
    (he : e.IsBool) (hcore : e.core.isRelational = true)
    (hinside : ∀ i ∈ e.getDeps, i < σ.inputs.length) (taken : Bool) (w₁ : World) :
    ∃ s w₂, Runs (body σ) (do
        let s ← S'.solver.reset.syncConstraints b z S'.ranges e
        s.addToSolver b z e (!taken)) w₁ s w₂ ∧
      ∀ m : Z3Model, m.Models s.solver_.assertions →
        ∃ values, ({ s with solver_ := { s.solver_ with model := some m } } :
          Solver).getConcreteValues =
            some values ∧
          values.length = σ.inputs.length ∧ (∀ q ∈ requests, q.fact (inputOf values)) ∧
          e.truth (inputOf values) = !taken := by
  obtain ⟨nodes, hrecords⟩ := records_of_run hb hz hq hrun
  obtain ⟨s, w₂, hr, -, hmodels⟩ :=
    turned_models hb.transparent hz hrecords he hcore hinside w₁ trivial
    fun _ _ => trivial
  exact ⟨s, w₂, hr, hmodels⟩

theorem serveAll_slices_jumpAndValue : ∃ (S' : SolverState) (s : Solver) (w' w₂ : World),
    Runs (body quietSession) ((new [0, 0] "out" "bitmap" none).serveAll SymbolicExprBuilder.chain
      (Z3.bruteForce 2).confine Campaign.oneImage 0 jumpAndValue) (freshWorld 0) S' w' ∧
    Runs (body quietSession) (do
      let s ← S'.solver.reset.syncConstraints SymbolicExprBuilder.chain (Z3.bruteForce 2).confine
        S'.ranges (.compare 0 .equal (.read 0) (.read 1))
      s.addToSolver SymbolicExprBuilder.chain (Z3.bruteForce 2).confine
        (.compare 0 .equal (.read 0) (.read 1)) (!true)) (freshWorld 0) s w₂ ∧
    ∀ m : Z3Model, m.Models s.solver_.assertions →
      ∃ values, ({ s with solver_ := { s.solver_ with model := some m } } :
        Solver).getConcreteValues =
          some values ∧
        values.length = 2 ∧ (∀ q ∈ jumpAndValue, q.fact (inputOf values)) ∧
        (Expr.compare 0 .equal (.read 0) (.read 1)).truth (inputOf values) = false := by
  obtain ⟨S', w', hrun⟩ := jumpAndValue_runs
  obtain ⟨s, w₂, hr, hmodels⟩ :=
    serveAll_slices (e := .compare 0 .equal (.read 0) (.read 1)) (.inl rfl)
    (Z3.bruteForce_correct 2).confine jumpAndValue_truthful hrun ⟨by decide, rfl⟩ rfl (by decide)
    true (freshWorld 0)
  exact ⟨S', s, w', w₂, hrun, hr, hmodels⟩

/-- **The test cases of a run.** With a solver that is correct and confined, a jump that is found
interesting puts out one test case: on the path of the requests before it if an input leads there
and takes the jump the other way, else one that takes it the other way at all. Other jumps and
values put out nothing. -/
theorem serveAll_generates_new (hb : Unpruned σ b) (hz : z.Correct σ.inputs.length)
    (hconf : z.Confined)
    (hq : ∀ q ∈ requests, q.Truthful σ)
    (hrun : Runs (body σ) ((new σ.inputs out_dir bitmap file).serveAll b z T fuel requests) w S'
      w') :
    Generates σ.inputs.length T (fun _ => True) (.start bitmap file) false requests
      S'.solver.saved := by
  obtain ⟨cases, hcases, hall⟩ := (serveAll_generates hb.transparent hz hconf hq
    (records_new σ out_dir bitmap file)).result hrun
  obtain rfl : S'.solver.saved = cases := hcases
  exact hall

theorem serveAll_generates_jumpAndValue : ∃ (S' : SolverState) (w' : World),
    Runs (body quietSession) ((new [0, 0] "out" "bitmap" none).serveAll SymbolicExprBuilder.chain
      (Z3.bruteForce 2).confine Campaign.oneImage 0 jumpAndValue) (freshWorld 0) S' w' ∧
    Generates 2 Campaign.oneImage (fun _ => True) (.start "bitmap" none) false jumpAndValue
      S'.solver.saved := by
  obtain ⟨S', w', hrun⟩ := jumpAndValue_runs
  exact ⟨S', w', hrun, serveAll_generates_new (.inl rfl) (Z3.bruteForce_correct 2).confine
    (Z3.confine_confined _)
    jumpAndValue_truthful hrun⟩

end SolverState

end Qsym
