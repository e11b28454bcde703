import Qsym.Solver.PathCondition

/-!
# Qsym.Solver.Slice

**Slicing.** To turn a condition around, the solver asserts only the constraints that are tied to
the bytes of the condition, and writes what Z3 finds over the input. The other constraints hold all
the same: they mention none of the bytes that Z3 was told about, so they have the values they have
on the input (`negated_records`).

Nothing but bytes tied to the condition reaches the assertions (`Within`), as the builder invents
none, and a constraint is tied to it as a whole or not at all (`Reached.all_or_none`).
-/

namespace Qsym

open Procedure Smt Components

/-- A model of `terms` that interprets only what they mention. -/
structure Z3Model.Models (m : Z3Model) (terms : List Term) : Prop where
  nodup : (m.consts.map Prod.fst).Nodup
  mentioned : ∀ c ∈ m.consts, ∃ t ∈ terms, ∃ x ∈ t.symbols, x.1 = c.1
  holds : ∀ ρ, m.Fits ρ → Holds ρ terms

namespace Solver

variable {σ : Session} {b : ExprBuilder} {z : Z3} {ranges : RangeSets} {s s₀ : Solver}
  {nodes : List Expr} {e x node : Expr} {reads : Nat → Prop} {ρ ρ' : Input}

/-- The bytes that the constraints on `nodes` tie to `e`. -/
def Tied (nodes : List Expr) (e : Expr) : Nat → Prop :=
  Reached (nodes.map Expr.getDeps) e.getDeps

theorem shares_iff : Shares nodes e node ↔ ∃ i ∈ node.getDeps, Tied nodes e i := by
  constructor
  · rintro ⟨i, hi, j, hj, hlinked⟩
    exact ⟨j, hj, i, hi, hlinked⟩
  · rintro ⟨j, hj, i, hi, hlinked⟩
    exact ⟨i, hi, j, hj, hlinked⟩

theorem over_tied_self : e.Over (Tied nodes e) True :=
  Expr.over_iff_getDeps.2 fun _ hi => .of_root hi

theorem over_tied (hnode : node ∈ nodes) (h : Shares nodes e node) :
    node.Over (Tied nodes e) True := by
  obtain ⟨i, hi, htied⟩ := shares_iff.1 h
  exact Expr.over_iff_getDeps.2 fun j hj => htied.of_mem (List.mem_map_of_mem hnode) hi hj

theorem nodeHolds_congr (h : ∀ i ∈ node.getDeps, ρ i = ρ' i) :
    NodeHolds ranges node ρ ↔ NodeHolds ranges node ρ' := by
  unfold NodeHolds Expr.truth Expr.bv
  rw [Expr.value_congr h]

/-! ### Assertions over the tied bytes -/

/-- The assertions are about the bytes `reads`. -/
def Within (reads : Nat → Prop) (s : Solver) : Prop :=
  ∀ t ∈ s.solver_.assertions, ∀ y ∈ t.symbols, reads y.1

theorem Within.add (hz : ∀ t, (z.simplify t).symbols ⊆ t.symbols) (h : Within reads s)
    (hx : x.Over reads True) : Within reads (s.add z x.toZ3Expr) := by
  unfold Solver.add
  split
  · exact h
  · intro t ht y hy
    rcases List.mem_append.1 ht with ht | ht
    · exact h t ht y hy
    · obtain rfl := List.mem_singleton.1 ht
      exact Expr.over_iff_getDeps.1 hx _ (Expr.toZ3Expr_symbols (hz _ hy)).2

section Stays

variable (hz : ∀ t, (z.simplify t).symbols ⊆ t.symbols)
include hz

open Build

theorem addToSolver_within {taken : Bool} (h : Within reads s) (hx : x.Over reads True) :
    (addToSolver b z s x taken).Stays reads True (Within reads) := by
  cases taken with
  | true => exact h.add hz hx
  | false => exact stays_create_bind.2 ⟨hx, fun _ hy => h.add hz hy⟩

theorem addRange_within {u : Bool} (h : Within reads s) (hn : node.Over reads True) :
    (addRange b z ranges node s u).Stays reads True (Within reads) := by
  refine (getRangeConstraint_stays hn).bind fun expr hexpr => ?_
  cases expr with
  | none => exact h
  | some x => exact addToSolver_within hz h (hexpr x rfl)

theorem addNode_within (h : Within reads s) (hn : node.Over reads True) :
    (addNode b z ranges s node).Stays reads True (Within reads) := by
  rw [addNode]
  split
  · exact addToSolver_within hz h hn
  · exact Program.Keeps.foldlM (fun _ _ _ h => addRange_within hz h hn) h

theorem syncConstraints_within (hF : DependencyForest.Sorted Expr.getDeps s.dep_forest_ nodes)
    (hempty : s.solver_.assertions = []) :
    (syncConstraints b z ranges s e).Stays (Tied nodes e) True (Within (Tied nodes e)) := by
  have hstart : Within (Tied nodes e) { s with
      dep_forest_ := (s.dep_forest_.findAll (e.getDeps.sort (· ≤ ·))).2 } := by
    intro t ht
    rw [show ({ s with dep_forest_ := _ } : Solver).solver_.assertions = _ from hempty] at ht
    cases ht
  refine Program.Keeps.foldlM (fun s node hnode h => addNode_within hz h ?_) hstart
  obtain ⟨hmem, hshares⟩ := (mem_nodes_findAll hF e node).1 hnode
  exact over_tied hmem hshares

end Stays

/-! ### The test case of a model -/

/-- A model is written over the input. What the assertions do not mention stays. -/
theorem getConcreteValues_of_models {m : Z3Model} (hs : s.OverInput) (hm : s.solver_.model = some m)
    (hmodels : m.Models s.solver_.assertions) :
    ∃ values, s.getConcreteValues = some values ∧ values.length = s.inputs_.length ∧
      Holds (inputOf values) s.solver_.assertions ∧
      ∀ i, (∀ t ∈ s.solver_.assertions, ∀ y ∈ t.symbols, y.1 ≠ i) →
        inputOf values i = inputOf s.inputs_ i := by
  have hlt : ∀ c ∈ m.consts, c.1 < s.inputs_.length := by
    intro c hc
    obtain ⟨t, ht, y, hy, hyc⟩ := hmodels.mentioned c hc
    exact hyc ▸ (hs t ht y hy).2
  obtain ⟨values, hfold, hin, hout⟩ := foldlM_set m.consts s.inputs_ hmodels.nodup hlt
  have hfits : m.Fits (inputOf values) := fun c hc => by
    rw [inputOf, List.getD_eq_getElem?_getD, hin c hc, Option.getD_some]
  refine ⟨values, by simpa [getConcreteValues, hm] using hfold, ?_,
    hmodels.holds _ hfits, fun i hi => ?_⟩
  · -- the lists have an element at the same places
    have hsome (i : Nat) : i < values.length ↔ i < s.inputs_.length := by
      by_cases hi : i ∈ m.consts.map Prod.fst
      · obtain ⟨c, hc, rfl⟩ := List.mem_map.1 hi
        have hvalue := hin c hc
        exact iff_of_true (List.getElem?_eq_some_iff.1 hvalue).1 (hlt c hc)
      · rw [← not_le, ← not_le, ← List.getElem?_eq_none_iff, ← List.getElem?_eq_none_iff, hout i hi]
    exact le_antisymm (Nat.le_of_not_lt fun h => absurd ((hsome _).1 h) (Nat.lt_irrefl _))
      (Nat.le_of_not_lt fun h => absurd ((hsome _).2 h) (Nat.lt_irrefl _))
  · have hnot : i ∉ m.consts.map Prod.fst := by
      intro hmem
      obtain ⟨c, hc, rfl⟩ := List.mem_map.1 hmem
      obtain ⟨t, ht, y, hy, hyc⟩ := hmodels.mentioned c hc
      exact hi t ht y hy hyc
    rw [inputOf, List.getD_eq_getElem?_getD, hout i hnot, ← List.getD_eq_getElem?_getD]
    rfl

end Solver

namespace SolverState

variable {σ : Session} {ok : MethodCall → Prop} {b : ExprBuilder} {z : Z3} {S : SolverState}
  {facts : Input → Prop} {nodes : List Expr} {e : Expr} {taken : Bool} {τ : Input}

open Solver

/-- **The sliced constraints are enough.** What satisfies them, and is the input behind the bytes
tied to `e`, satisfies all. -/
theorem Records.facts_of_slice (h : Records σ facts nodes [] S)
    (hslice : Satisfies S.ranges nodes e τ) (hrest : ∀ i, ¬ Tied nodes e i → τ i = σ.input i) :
    facts τ := by
  refine h.complete τ fun node hnode => ?_
  have hnode : node ∈ nodes := by simpa using hnode
  rcases Reached.all_or_none e.getDeps (List.mem_map_of_mem (f := Expr.getDeps) hnode) with
    htied | huntied
  · by_cases hshares : Shares nodes e node
    · exact hslice node hnode hshares
    · -- a tied constraint that shares nothing mentions nothing
      have hnone : ∀ i ∈ node.getDeps, τ i = σ.input i := fun i hi =>
        absurd (shares_iff.2 ⟨i, hi, htied i hi⟩) hshares
      exact (nodeHolds_congr hnone).2 (h.isNode hnode).holds
  · exact (nodeHolds_congr fun i hi => hrest i (huntied i hi)).2 (h.isNode hnode).holds

theorem Records.satisfies (h : Records σ facts nodes [] S) (hτ : facts τ) :
    Satisfies S.ranges nodes e τ :=
  fun _ hnode _ => h.holds hτ (List.mem_append_left _ hnode)

open Classical in
/-- An input that satisfies the sliced constraints can be completed to one that satisfies all, with
the same bytes below `e`. -/
theorem Records.exists_facts (h : Records σ facts nodes [] S) {ρ : Input}
    (hslice : Satisfies S.ranges nodes e ρ) :
    ∃ τ, facts τ ∧ ∀ i ∈ e.getDeps, τ i = ρ i := by
  refine ⟨fun i => if Tied nodes e i then ρ i else σ.input i, ?_, fun i hi => if_pos (.of_root hi)⟩
  refine h.facts_of_slice (fun node hnode hshares => ?_) fun i hi => if_neg hi
  refine (nodeHolds_congr fun i hi => if_pos ?_).2 (hslice node hnode hshares)
  exact Expr.over_iff_getDeps.1 (over_tied hnode hshares) i hi

/-! ### A condition is turned around -/

section Turning

variable (hb : Transparent σ ok b)
include hb

theorem addToSolver_turned {s s₀ : Solver} {P : Input → Prop}
    (h : Solver.Asserts (fun _ => True) s₀ P s) (hz : z.Correct s₀.inputs_.length) (he : e.IsBool)
    (hcore : e.core.isRelational = true)
    (hover : e.Over (· < s₀.inputs_.length) True) :
    Builds σ ok (s.addToSolver b z e (!taken))
      (Solver.Asserts (fun _ => True) s₀ fun ρ => P ρ ∧ e.truth ρ = !taken) := by
  have hdecides : Decides (fun _ => True) (fun ρ => e.truth ρ) e := ⟨he, fun _ _ => rfl⟩
  cases taken with
  | false =>
      refine Total.ret (h.add hz ⟨hover, hdecides⟩ fun hl => ?_)
      cases e with
      | bool | constant => cases hcore
      | _ => cases hl
  | true =>
      have hlnot := (hb.sound.lnot rfl hdecides).over (c := .unary .lnot e) hover
      refine Total.bind (hlnot.and (hb.negates hcore)) ?_
      rintro y ⟨⟨hy, hnot⟩, hliteral⟩
      refine Total.ret ((h.add hz ⟨hy, hnot⟩ fun hl => nomatch hl.symm.trans hliteral).congr ?_)
      exact fun ρ _ => and_congr_right fun _ => by rw [Bool.not_eq_true']; rfl

/-- What the solver holds once the constraints tied to `e` are on it: `P`, about their bytes. -/
def Sliced (S : SolverState) (nodes : List Expr) (e : Expr) (P : Input → Prop)
    (s : Solver) : Prop :=
  Solver.Asserts (fun _ => True) { S.solver.reset with
    dep_forest_ := (S.solver.dep_forest_.findAll (e.getDeps.sort (· ≤ ·))).2 } P s ∧
  Within (Tied nodes e) s

theorem syncConstraints_sliced (hz : z.Correct σ.inputs.length) (h : Records σ facts nodes [] S) :
    Builds σ ok (S.solver.reset.syncConstraints b z S.ranges e)
      (Sliced S nodes e (Satisfies S.ranges nodes e)) := by
  rw [← h.inputs] at hz
  refine (syncConstraints_asserts (s := S.solver.reset) (e := e) hb.sound hz h.inputs
    trivial h.sorted
    (fun _ => h.isNode) rfl).yields ?_
  exact .of_keeps (body_stays σ) (syncConstraints_within hz.simplify_symbols h.sorted rfl)

theorem addToSolver_sliced {s : Solver} {P : Input → Prop} (hz : z.Correct σ.inputs.length)
    (h : Records σ facts nodes [] S) (hs : Sliced S nodes e P s) (he : e.IsBool)
    (hcore : e.core.isRelational = true) (hinside : ∀ i ∈ e.getDeps, i < σ.inputs.length) :
    Builds σ ok (s.addToSolver b z e (!taken))
      (Sliced S nodes e fun ρ => P ρ ∧ e.truth ρ = !taken) := by
  rw [← h.inputs] at hz hinside
  refine (addToSolver_turned hb hs.1 hz he hcore (Expr.over_iff_getDeps.2 hinside)).yields ?_
  exact .of_keeps (body_stays σ) (addToSolver_within hz.simplify_symbols hs.2 over_tied_self)

omit hb in
/-- The answer of a check changes nothing. -/
theorem Sliced.of_solver {s : Solver} {P : Input → Prop} (hs : Sliced S nodes e P s) (checks : Nat)
    (model : Option Z3Model) : Sliced S nodes e P
      { s with solver_ := { s.solver_ with checks := checks, model := model } } := by
  obtain ⟨⟨hputs, hover, hholds⟩, hwithin⟩ := hs
  exact ⟨⟨⟨hputs.inputs, hputs.out_dir, hputs.interested, hputs.forest, hputs.scopes, hputs.saved⟩,
    hover, hholds⟩, hwithin⟩

omit hb in
/-- A model of what is asserted makes a test case that satisfies all constraints. -/
theorem Sliced.models {s : Solver} {P : Input → Prop} {m : Z3Model}
    (hs : Sliced S nodes e (fun ρ => Satisfies S.ranges nodes e ρ ∧ P ρ) s)
    (h : Records σ facts nodes [] S) (hm : s.solver_.model = some m)
    (hmodels : m.Models s.solver_.assertions) :
    ∃ values, s.getConcreteValues = some values ∧ values.length = σ.inputs.length ∧
      facts (inputOf values) ∧ P (inputOf values) := by
  obtain ⟨hasserts, hwithin⟩ := hs
  have hinputs : s.inputs_ = σ.inputs := hasserts.puts.inputs.trans h.inputs
  obtain ⟨values, hvalues, hlength, hholds, hrest⟩ :=
    getConcreteValues_of_models hasserts.overInput hm hmodels
  obtain ⟨hslice, hP⟩ := (hasserts.holds _ trivial).1 hholds
  refine ⟨values, hvalues, hlength.trans (congrArg List.length hinputs), ?_, hP⟩
  refine h.facts_of_slice hslice fun i hi => ?_
  rw [hrest i fun t ht y hy hyi => hi (hyi ▸ hwithin t ht y hy)]
  exact congrArg (inputOf · i) hinputs

/-- **Slicing is sound.** Whatever model is found, the test case it makes satisfies all constraints,
and turns `e` around. -/
theorem turned_models (hz : z.Correct σ.inputs.length)
    (h : Records σ facts nodes [] S) (he : e.IsBool)
    (hcore : e.core.isRelational = true) (hinside : ∀ i ∈ e.getDeps, i < σ.inputs.length) :
    Builds σ ok (do
        let s ← S.solver.reset.syncConstraints b z S.ranges e
        s.addToSolver b z e (!taken)) fun s =>
      ∀ m : Z3Model, m.Models s.solver_.assertions →
        ∃ values, ({ s with solver_ := { s.solver_ with model := some m } } :
          Solver).getConcreteValues =
            some values ∧
          values.length = σ.inputs.length ∧ facts (inputOf values) ∧
            e.truth (inputOf values) = !taken := by
  refine Total.bind (syncConstraints_sliced hb hz h) fun s hs => ?_
  refine (addToSolver_sliced hb hz h hs he hcore hinside).mono fun s' hs' m hm => ?_
  exact (hs'.of_solver s'.solver_.checks (some m)).models h rfl hm

end Turning

end SolverState

end Qsym
