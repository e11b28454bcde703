import Qsym.Solver.Generate

/-!
# Qsym.Solver.Bounds

`addAddr` while the path is interesting: an address is moved to **both ends** of what it can be on
the path. The searches run under the constraints tied to the address, but their ends are the ends
over all inputs of the path (`serveAll_bounds`), as slicing loses no value.
-/

namespace Qsym

open Procedure Smt

namespace Solver

variable {s s₁ s' : Solver} {z : Z3} {z3_expr : Term} {n fuel : Nat} {v : BitVec n}
  {new new' : List TestCase}

/-- Searching from `s` put out `new`, under the assertions of `s`, and left these as they were. -/
structure Visits (s : Solver) (new : List TestCase) (s' : Solver) : Prop where
  inputs : s'.inputs_ = s.inputs_
  assertions : s'.solver_.assertions = s.solver_.assertions
  scopes : s'.solver_.scopes = s.solver_.scopes
  saved : s'.saved = s.saved ++ new
  holds : ∀ case ∈ new, Holds (inputOf case.values) s.solver_.assertions

theorem Visits.trans (h : Visits s new s₁) (h' : Visits s₁ new' s') :
    Visits s (new ++ new') s' where
  inputs := h'.inputs.trans h.inputs
  assertions := h'.assertions.trans h.assertions
  scopes := h'.scopes.trans h.scopes
  saved := by rw [h'.saved, h.saved, List.append_assoc]
  holds := List.forall_mem_append.2 ⟨h.holds, h.assertions ▸ h'.holds⟩

theorem Visits.overInput (h : Visits s new s') (hs : s.OverInput) : s'.OverInput := by
  rw [OverInput, h.assertions, h.inputs]
  exact hs

/-- One check for a value that the expression can have. -/
theorem solveOne_visits (hz : z.Correct s.inputs_.length) (hn : IsBVTerm z3_expr n)
    (hover : OverBytes s.inputs_.length z3_expr) (hs : s.OverInput)
    (hsome : ∃ ρ, Holds ρ s.solver_.assertions ∧ numeral z3_expr ρ = v.toNat) :
    ∃ case s', s.solveOne z (.eq z3_expr (.bv n v)) = some s' ∧ Visits s [case] s' ∧
      numeral z3_expr (inputOf case.values) = v.toNat := by
  have hiff (ρ : Input) : (z.simplify (.eq z3_expr (.bv n v))).eval (Expr.symbols ρ) =
      some (.bool true) ↔
      numeral z3_expr ρ = v.toNat := by
    obtain ⟨w, hw⟩ := hn ρ
    rw [hz.simplify_eval, numeral_eq hw, BitVec.toNat_inj]
    simp [Term.eval, hw]
  have hadd : s.push.add z (.eq z3_expr (.bv n v)) =
      s.push.addExpr (z.simplify (.eq z3_expr (.bv n v))) := rfl
  have hover' : (s.push.addExpr (z.simplify (.eq z3_expr (.bv n v)))).OverInput := by
    intro t ht
    rcases List.mem_append.1 ht with ht | ht
    · exact hs t ht
    · obtain rfl := List.mem_singleton.1 ht
      exact fun y hy => hover y (by simpa [Term.symbols] using hz.simplify_symbols _ hy)
  have hholds (ρ : Input) : Holds ρ
      (s.push.addExpr (z.simplify (.eq z3_expr (.bv n v)))).solver_.assertions ↔
      Holds ρ s.solver_.assertions ∧ numeral z3_expr ρ = v.toNat := by
    show Holds ρ (s.solver_.assertions ++ [_]) ↔ _
    rw [holds_append, holds_singleton, hiff]
  rcases checkAndSave_cases (s := s.push.addExpr (z.simplify (.eq z3_expr (.bv n v)))) hz hover' ""
    with ⟨m, case, s₁, hcheck, hfound⟩ | ⟨s₁, -, hnone, -⟩
  · obtain ⟨hcase, hvalue⟩ := (hholds _).1 hfound.holds
    have hscopes : s₁.solver_.scopes = s.solver_.assertions :: s.solver_.scopes :=
      hfound.puts.scopes
    refine ⟨case, { s₁ with solver_ := { s₁.solver_ with
      assertions := s.solver_.assertions, scopes := s.solver_.scopes } }, ?_, ?_, hvalue⟩
    · simp [solveOne, hadd, hcheck, pop, Z3Solver.pop, hscopes]
    · exact ⟨hfound.puts.inputs, rfl, rfl, hfound.puts.saved, List.forall_mem_singleton.2 hcase⟩
  · obtain ⟨ρ, hρ⟩ := hsome
    exact absurd ((hholds ρ).2 hρ) (hnone ρ)

/-- A search for an end, as a visit. -/
theorem getExtremum_visits (bound : BVPred) (R : Nat → Nat → Prop) (hz : z.Correct s.inputs_.length)
    (he : z.Evaluates s.inputs_.length z3_expr n) (hn : IsBVTerm z3_expr n)
    (hover : OverBytes s.inputs_.length z3_expr) (hs : s.OverInput)
    (hsat : ∃ ρ, Holds ρ s.solver_.assertions)
    (hbound : ∀ v w : BitVec n, bound.holds v w = true ↔ R v.toNat w.toNat)
    (hR : ∀ v, ¬ R v v) (hfuel : 2 ^ n < fuel) :
    ∃ (v : BitVec n) (found : List Nat) (s' : Solver),
      s.getExtremum z bound z3_expr fuel = some (some (.bv n v), s') ∧ (∃ new, Visits s new s') ∧
      Search.Rounds {ρ | Holds ρ s.solver_.assertions} (numeral z3_expr) R (v.toNat :: found) ∧
      Search.Exhausted {ρ | Holds ρ s.solver_.assertions} (numeral z3_expr) R
        (v.toNat :: found) := by
  obtain ⟨v, found, s', hrun, hrestores, hrounds, hex⟩ :=
    getExtremum_spec bound R hz he hn hover hs hsat hbound hR hfuel
  obtain ⟨new, hsaved, hcases⟩ := hrestores.saved
  exact ⟨v, found, s', hrun, ⟨new, (Quiet.getExtremum hrun).inputs, hrestores.assertions,
    hrestores.scopes, hsaved, hcases⟩, hrounds, hex⟩

/-- **Both ends are found**, and visited. -/
theorem solveBounds_visits (hz : z.Correct s.inputs_.length)
    (he : z.Evaluates s.inputs_.length z3_expr n) (hn : IsBVTerm z3_expr n)
    (hover : OverBytes s.inputs_.length z3_expr) (hs : s.OverInput)
    (hsat : ∃ ρ, Holds ρ s.solver_.assertions) (hfuel : 2 ^ n < fuel) :
    ∃ new s', s.solveBounds z z3_expr fuel = some s' ∧ Visits s new s' ∧
      (∃ lo ∈ new, IsLeast (numeral z3_expr '' {ρ | Holds ρ s.solver_.assertions})
        (numeral z3_expr (inputOf lo.values))) ∧
      ∃ hi ∈ new, IsGreatest (numeral z3_expr '' {ρ | Holds ρ s.solver_.assertions})
        (numeral z3_expr (inputOf hi.values)) := by
  obtain ⟨lo, _, s₁, hmin, ⟨new₁, h₁⟩, hrounds, hex⟩ :=
    getExtremum_visits .bvult (· < ·) hz he hn hover
    hs hsat (fun v w => by simp [BVPred.holds, BitVec.ult]) Nat.lt_irrefl hfuel
  have hleast := hrounds.isLeast hex
  obtain ⟨hi, _, s₂, hmax, ⟨new₂, h₂⟩, hrounds, hex⟩ := getExtremum_visits .bvugt (· > ·)
    (h₁.inputs ▸ hz) (h₁.inputs ▸ he) hn (h₁.inputs ▸ hover) (h₁.overInput hs)
      (h₁.assertions ▸ hsat)
    (fun v w => by simp [BVPred.holds, BitVec.ult]) Nat.lt_irrefl hfuel
  have hgreatest := hrounds.isGreatest hex
  rw [h₁.assertions] at hgreatest
  have h₁₂ := h₁.trans h₂
  obtain ⟨ρ, hρ, hvalue⟩ := hleast.1
  obtain ⟨case₃, s₃, hone, h₃, hlo⟩ := solveOne_visits (v := lo) (h₁₂.inputs ▸ hz) hn
    (h₁₂.inputs ▸ hover) (h₁₂.overInput hs) ⟨ρ, by rwa [h₁₂.assertions], hvalue⟩
  have h₁₃ := h₁₂.trans h₃
  obtain ⟨ρ', hρ', hvalue'⟩ := hgreatest.1
  obtain ⟨case₄, s₄, hone', h₄, hhi⟩ := solveOne_visits (v := hi) (h₁₃.inputs ▸ hz) hn
    (h₁₃.inputs ▸ hover) (h₁₃.overInput hs) ⟨ρ', by rwa [h₁₃.assertions], hvalue'⟩
  refine ⟨_, s₄, ?_, h₁₃.trans h₄, ⟨case₃, by simp, hlo ▸ hleast⟩, case₄, by simp, hhi ▸ hgreatest⟩
  have hmin : s.getMinValue z z3_expr fuel = _ := hmin
  have hmax : s₁.getMaxValue z z3_expr fuel = _ := hmax
  simp [solveBounds, hmin, hmax, hone, hone']

end Solver

namespace SolverState

variable {Reg : Type} {σ : Session} {ok : MethodCall → Prop} {b : ExprBuilder} {z : Z3}
  {S S' : SolverState} {facts : Input → Prop} {nodes : List Expr} {e : Expr} {fuel : Nat}

open Solver

/-- The numbers that `e` has on the inputs of `facts`. -/
def addresses (e : Expr) (facts : Input → Prop) : Set Nat :=
  (fun ρ => (e.bv ρ e.bits).toNat) '' {ρ | facts ρ}

/-- The numbers under the sliced constraints are the numbers under all of them. -/
theorem Records.addresses_eq (h : Records σ facts nodes [] S) :
    addresses e (Satisfies S.ranges nodes e) = addresses e facts := by
  refine Set.Subset.antisymm ?_ (Set.image_mono fun ρ hρ => h.satisfies hρ)
  rintro _ ⟨ρ, hρ, rfl⟩
  obtain ⟨τ, hτ, heq⟩ := h.exists_facts hρ
  refine ⟨τ, hτ, ?_⟩
  show (e.bv τ e.bits).toNat = (e.bv ρ e.bits).toNat
  rw [Expr.bv, Expr.value_congr heq, Expr.bv]

/-- **An address is moved to both ends**, and recorded. -/
theorem addAddr_bounds (hb : Transparent σ ok b) (hz : z.Correct σ.inputs.length)
    (hev : z.Evaluates σ.inputs.length e.toZ3Expr e.bits) (h : Records σ facts nodes [] S)
    (hinterested : S.solver.last_interested_ = true) {addr : BitVec e.bits} (he : e.IsBV e.bits)
    (hinside : ∀ i ∈ e.getDeps, i < σ.inputs.length) (hc : e.isConcrete = false)
    (haddr : e.bv σ.input e.bits = addr) (hfuel : 2 ^ e.bits < fuel) :
    Builds σ ok (S.addAddr b z e addr fuel) fun S' =>
      (∃ nodes', Records σ (fun ρ => facts ρ ∧ e.bv ρ e.bits = addr) nodes' [] S') ∧
      ∃ new, S'.solver.saved = S.solver.saved ++ new ∧
        (∀ case ∈ new, Satisfies S.ranges nodes e (inputOf case.values)) ∧
        (∃ lo ∈ new, IsLeast (addresses e facts) (e.bv (inputOf lo.values) e.bits).toNat) ∧
        ∃ hi ∈ new, IsGreatest (addresses e facts) (e.bv (inputOf hi.values) e.bits).toNat := by
  have hz' : z.Correct S.solver.reset.inputs_.length := h.inputs ▸ hz
  have hsync := (syncConstraints_asserts (s := S.solver.reset) (e := e) hb.sound hz'
      h.inputs trivial
    h.sorted (fun _ => h.isNode) rfl).yields syncConstraints_quiet
  unfold addAddr
  rw [if_neg (by simp [hc]), if_pos hinterested]
  refine Total.bind hsync ?_
  rintro s ⟨hs, hquiet⟩
  have hinputs : s.inputs_ = σ.inputs := hs.puts.inputs.trans h.inputs
  have hsaved : s.saved = S.solver.saved := hs.puts.saved.trans (List.append_nil _)
  have hinput : Holds σ.input s.solver_.assertions :=
    (hs.holds σ.input trivial).2 fun node hnode _ => (h.isNode hnode).holds
  cases hcheck : z.check s.solver_.checks s.solver_.assertions with
  | unsat => exact absurd hinput (hz.unsat (hinputs ▸ hs.overInput) hcheck σ.input)
  | unknown => exact absurd hcheck (hz.decides (hinputs ▸ hs.overInput))
  | sat m =>
      have hlength : (s.check z).2.inputs_.length = σ.inputs.length := congrArg List.length hinputs
      have hover : OverBytes σ.inputs.length e.toZ3Expr :=
        overBytes_toZ3Expr (Expr.over_iff_getDeps.2 hinside)
      obtain ⟨new, s', hrun, hvisits, ⟨lo, hlo, hleast⟩, hi, hhi, hgreatest⟩ :=
        solveBounds_visits (s := (s.check z).2) (hlength ▸ hz) (hlength ▸ hev)
          (fun ρ => ⟨_, eval_toZ3Expr he ρ⟩) (hlength ▸ hover) hs.overInput ⟨σ.input, hinput⟩ hfuel
      have hnumeral (ρ : Input) : numeral e.toZ3Expr ρ = (e.bv ρ e.bits).toNat :=
        numeral_eq (eval_toZ3Expr he ρ)
      have hvalues : numeral e.toZ3Expr '' {ρ | Holds ρ (s.check z).2.solver_.assertions} =
          addresses e facts := by
        rw [← h.addresses_eq, addresses]
        refine (Set.image_congr' hnumeral).trans (congrArg _ (Set.ext fun ρ => ?_))
        exact hs.holds ρ trivial
      rw [hvalues, hnumeral] at hleast hgreatest
      have hcheckeq : s.check z = (.sat m, (s.check z).2) := by
        simp [check, Z3Solver.check, hcheck]
      rw [hcheckeq]
      show Builds σ ok (do
        let solver ← Build.attempt ((s.check z).2.solveBounds z e.toZ3Expr fuel)
        { S with solver }.addValue b e addr) _
      rw [hrun]
      have hvisited : Quiet S.solver s' := by
        refine (Quiet.trans ?_ hquiet).trans (Quiet.trans ?_ (.solveBounds hrun))
        · exact .of_forest rfl rfl rfl rfl
        · exact .of_forest rfl rfl rfl rfl
      refine (addValue_records hb (h.quiet hvisited) he hinside haddr).mono ?_
      rintro S' ⟨honly, hrecords⟩
      refine ⟨hrecords, new, ?_, fun case hcase => ?_, ⟨lo, hlo, hleast⟩, hi, hhi, hgreatest⟩
      · have hsaved' : s'.saved = s.saved ++ new := hvisits.saved
        rw [honly.putsOut.saved, List.append_nil, hsaved', hsaved]
      · exact (hs.holds _ trivial).1 (hvisits.holds case hcase)

/-- A jump that no process has seen is interesting. -/
theorem jumpAndValue_interesting : ∃ S' w',
    Runs (body quietSession) ((new [0, 0] "out" "bitmap" none).serveAll SymbolicExprBuilder.chain
      (Z3.bruteForce 2) Campaign.oneImage 0 (jumpAndValue.take 1)) (freshWorld 0) S' w' ∧
    S'.solver.last_interested_ = true := by
  have hstart := records_new quietSession "out" "bitmap" none
  have hq := jumpAndValue_truthful _ (List.getElem_mem (n := 0) (by decide))
  have hserve : Builds quietSession anyCall ((new [0, 0] "out" "bitmap" none).serve
      SymbolicExprBuilder.chain (Z3.bruteForce 2) Campaign.oneImage 0 jumpAndValue[0]) _ :=
    (serve_returns (chain_transparent quietSession) (Z3.bruteForce_correct 2) (fun _ => rfl) hq rfl
      hstart).yields (serve_steps (chain_transparent quietSession)
        (Z3.bruteForce_correct 2) hstart hq)
  obtain ⟨S', w', hrun, -, -, -, hasks, -⟩ := hserve (freshWorld 0) trivial fun _ _ => trivial
  refine ⟨S', w', Runs.bind_iff.2 ⟨S', w', hrun, .ret _ _⟩, ?_⟩
  have hanswer : (jumpAndValue[0].asks Campaign.oneImage (.start "bitmap" none) false).map
      Prod.fst =
      some true := by decide
  have hasks : jumpAndValue[0].asks Campaign.oneImage (.start "bitmap" none) false = _ := hasks
  rw [hasks] at hanswer
  exact Option.some.inj hanswer

/-- **Addresses of a run.** At an interesting point after any run, an address is recorded, and among
the test cases put out are ones with the least and the greatest address that any input of the same
path has. All of them satisfy the constraints tied to the address. -/
theorem serveAll_bounds (hb : Unpruned σ b) (hz : z.Correct σ.inputs.length)
    (hev : z.Evaluates σ.inputs.length e.toZ3Expr e.bits)
    {requests : List (Request Reg)} {T : Tracer}
    {out_dir bitmap : String} {file : File} {w w' : World} {fuel' : Nat}
    (hq : ∀ q ∈ requests, q.Truthful σ)
    (hrun : Runs (body σ) ((new σ.inputs out_dir bitmap file).serveAll b z T fuel' requests) w S'
      w')
    (hinterested : S'.solver.last_interested_ = true) {addr : BitVec e.bits} (he : e.IsBV e.bits)
    (hinside : ∀ i ∈ e.getDeps, i < σ.inputs.length) (hc : e.isConcrete = false)
    (haddr : e.bv σ.input e.bits = addr) (hfuel : 2 ^ e.bits < fuel) (w₁ : World) :
    ∃ S'' w₂ nodes nodes' cases, Runs (body σ) (S'.addAddr b z e addr fuel) w₁ S'' w₂ ∧
      DependencyForest.Sorted Expr.getDeps S'.solver.dep_forest_ nodes ∧
      DependencyForest.Sorted Expr.getDeps S''.solver.dep_forest_ nodes' ∧
      (∀ ρ, (∀ e ∈ nodes', NodeHolds S''.ranges e ρ) ↔
        (∀ q ∈ requests, q.fact ρ) ∧ e.bv ρ e.bits = addr) ∧
      S''.solver.saved = S'.solver.saved ++ cases ∧
      (∀ case ∈ cases, Satisfies S'.ranges nodes e (inputOf case.values)) ∧
      (∃ lo ∈ cases, IsLeast (addresses e fun ρ => ∀ q ∈ requests, q.fact ρ)
        (e.bv (inputOf lo.values) e.bits).toNat) ∧
      ∃ hi ∈ cases, IsGreatest (addresses e fun ρ => ∀ q ∈ requests, q.fact ρ)
        (e.bv (inputOf hi.values) e.bits).toNat := by
  obtain ⟨nodes, hrecords⟩ := records_of_run hb hz hq hrun
  obtain ⟨S'', w₂, hr, -, ⟨nodes', hrecords'⟩, cases, hcases⟩ :=
    addAddr_bounds hb.transparent hz hev
    hrecords hinterested he hinside hc haddr hfuel w₁ trivial fun _ _ => trivial
  refine ⟨S'', w₂, nodes, nodes', cases, hr, hrecords.sorted, hrecords'.sorted, fun ρ => ?_, hcases⟩
  have hiff := hrecords'.holds_iff ρ
  rwa [List.append_nil] at hiff

theorem serveAll_bounds_read : ∃ (S' S'' : SolverState) (w' w₂ : World) (cases : List TestCase),
    Runs (body quietSession) ((new [0, 0] "out" "bitmap" none).serveAll SymbolicExprBuilder.chain
      (Z3.bruteForce 2) Campaign.oneImage 0 (jumpAndValue.take 1)) (freshWorld 0) S' w' ∧
    Runs (body quietSession) (S'.addAddr SymbolicExprBuilder.chain (Z3.bruteForce 2) (.read 1)
      (0 : BitVec 8) 257) (freshWorld 0) S'' w₂ ∧
    S''.solver.saved = S'.solver.saved ++ cases ∧
    (∃ lo ∈ cases, IsLeast (addresses (.read 1) fun ρ => ∀ q ∈ jumpAndValue.take 1, q.fact ρ)
      ((Expr.read 1).bv (inputOf lo.values) 8).toNat) ∧
    ∃ hi ∈ cases, IsGreatest (addresses (.read 1) fun ρ => ∀ q ∈ jumpAndValue.take 1, q.fact ρ)
      ((Expr.read 1).bv (inputOf hi.values) 8).toNat := by
  obtain ⟨S', w', hrun, hinterested⟩ := jumpAndValue_interesting
  obtain ⟨S'', w₂, -, -, cases, hr, -, -, -, hsaved, -, hlo, hhi⟩ := serveAll_bounds (e := .read 1)
    (.inl rfl) (Z3.bruteForce_correct 2) read_evaluates
    (fun q hq => jumpAndValue_truthful q (List.mem_of_mem_take hq)) hrun hinterested (isBV_read 1)
    (by decide) rfl rfl (by decide : 2 ^ 8 < 257) (freshWorld 0)
  exact ⟨S', S'', w', w₂, cases, hrun, hr, hsaved, hlo, hhi⟩

end SolverState

end Qsym
