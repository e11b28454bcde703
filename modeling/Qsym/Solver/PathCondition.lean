import Qsym.Coverage.AflTraceMap
import Qsym.Solver.Canonical

/-!
# Qsym.Solver.PathCondition

The **path condition**: what `Solver::addConstraint` keeps of the conditions that the process has
passed.

A comparison with a constant is kept in the range sets of its canonical expression, and everything
else as it is, or negated. Either way an expression goes to the forest, so that the constraint is
found again by the input bytes below it. `Records` says that the nodes of the forest hold for
exactly the inputs that satisfy the facts passed so far; it carries the induction over any run.
-/

namespace Qsym

open Procedure

variable {σ : Session} {ok : MethodCall → Prop} {E : Input → Prop} {b : ExprBuilder}

/-! ### Builders that keep conditions -/

/-- `e` without the negations in front of it. -/
def Expr.core : Expr → Expr
  | .unary _ .lnot e => e.core
  | e => e

/-- What a builder offers for conditions that are recorded: they stay what they are. -/
structure Transparent (σ : Session) (ok : MethodCall → Prop) (b : ExprBuilder) : Prop where
  sound : SoundStructurally σ ok (fun _ => True) b
  constant : ∀ {n : Nat} (v : BitVec n), 0 < n →
    Builds σ ok (b.create (.constant n v)) fun x => ∃ ref, x = .constant ref n v
  equal : ∀ {n : Nat} {e imm : Expr}, e.IsBV n → imm.IsBV n → e.isConstant = false →
    imm.isConstant = true → Builds σ ok (b.createEqual e imm) fun x => ∃ ref, x =
      .compare ref .equal imm e
  lnot : ∀ {e : Expr}, e.isRelational = true → e.core = e →
    Builds σ ok (b.createLNot e) fun x => ∃ ref, x = .unary ref .lnot e
  unwraps : ∀ {ref : Nat} {e : Expr}, Builds σ ok (b.createLNot (.unary ref .lnot e)) fun x => x = e

theorem createLNot_relational {below : ExprBuilder} {Q : Expr → Prop} {e : Expr}
    (hrel : e.isRelational = true) (hcore : e.core = e)
    (h : Builds σ ok (ExprBuilder.create below (.unary .lnot e)) Q) :
    Builds σ ok (ExprBuilder.createLNot
      (.commutative :: .symbolic :: .common :: .constantFolding :: below) e) Q := by
  cases e with
  | compare => exact createLNot_handsOn h
  | binary _ k =>
      cases k with
      | lor | land =>
          exact builds_create fun _ => builds_create fun _ => builds_create fun _ =>
            builds_create fun _ => h
      | _ => cases hrel
  | unary ref k x =>
      cases k with
      | lnot =>
          have hsize := congrArg sizeOf hcore
          have hle : ∀ x : Expr, sizeOf x.core ≤ sizeOf x := fun x => by
            fun_induction Expr.core x with
            | case1 ref x ih => exact ih.trans (by simp)
            | case2 => exact Nat.le_refl _
          have := hle x
          simp only [Expr.core, Expr.unary.sizeOf_spec] at hsize
          omega
      | _ => cases hrel
  | _ => cases hrel

theorem createLNot_unwraps {below : ExprBuilder} {ref : Nat} {e : Expr} :
    Builds σ ok (ExprBuilder.createLNot (.commutative :: .symbolic :: below) (.unary ref .lnot e))
      fun x => x = e :=
  builds_create fun _ => builds_create fun _ => Total.ret rfl

theorem chain_transparent (σ : Session) : Transparent σ anyCall SymbolicExprBuilder.chain where
  sound := (chain_tests σ _).sound
  constant := (chain_tests σ fun _ => True).constant
  equal he himm hc hi :=
    createEqual_handsOn he.isBoolean hc hi (cache_compare (himm.bits.trans he.bits.symm))
  lnot hrel hcore := createLNot_relational hrel hcore cache_lnot
  unwraps := createLNot_unwraps

/-- While everything is interesting nothing is pruned. -/
theorem prunedChain_transparent (hi : ∀ tick, σ.isInteresting tick = true) :
    Transparent σ anyCall PruneExprBuilder.chain where
  sound := (prunedChain_tests_of_interesting hi _).sound
  constant := (prunedChain_tests_of_interesting hi fun _ => True).constant
  equal he himm hc hconst := createEqual_handsOn he.isBoolean hc hconst
    (builds_create fun _ => cache_compare (himm.bits.trans he.bits.symm))
  lnot hrel hcore := by
    refine createLNot_relational hrel hcore (builds_create fun _ => Total.bind cache_lnot ?_)
    rintro _ ⟨ref, rfl⟩
    refine builds_ask fun w => ?_
    rw [if_pos (hi w.tick)]
    exact Total.ret ⟨ref, rfl⟩
  unwraps := createLNot_unwraps

theorem Expr.isRelational_of_core {e : Expr} (h : e.core.isRelational = true) :
    e.isRelational = true := by
  cases e with
  | unary ref k x => cases k <;> first | rfl | cases h
  | _ => exact h

/-- What does not depend on the input is what it is in the session. -/
theorem Expr.value_of_isConcrete {e : Expr} (h : e.isConcrete = true) (ρ ρ' : Input) :
    e.value ρ = e.value ρ' :=
  Expr.value_congr fun i hi => by simp [Expr.isConcrete_iff.1 h] at hi

/-- The negation of a condition is no literal. -/
theorem Transparent.negates (hb : Transparent σ ok b) {e : Expr} (he : e.core.isRelational = true) :
    Builds σ ok (b.createLNot e) fun x => x.isLiteral = false := by
  have hliteral {x : Expr} (hx : x.core.isRelational = true) : x.isLiteral = false := by
    cases x with
    | bool | constant => cases hx
    | _ => rfl
  fun_cases Expr.core e with
  | case1 ref x =>
      refine hb.unwraps.mono ?_
      rintro _ rfl
      exact hliteral he
  | case2 _ hnot =>
      have hcore : e.core = e := by
        cases e with
        | unary ref k y => cases k <;> first | rfl | exact absurd rfl (hnot ref y)
        | _ => rfl
      refine (hb.lnot (hcore ▸ he) hcore).mono ?_
      rintro _ ⟨ref, rfl⟩
      rfl

/-! ### Recording -/

/-- `Solver`, with the range sets of the nodes and the maps of `trace_`. -/
structure SolverState where
  solver : Solver
  ranges : RangeSets
  trace_ : Campaign

namespace SolverState

variable (b : ExprBuilder) (S : SolverState)

/-- `Solver::addConstraint(ExprRef)` -/
def record (e : Expr) : Build SolverState :=
  match S.solver.dep_forest_.addConstraint e with
  | .ok F => .ret { S with solver := { S.solver with dep_forest_ := F } }
  | .error _ => .stop

def addRangeConstraint (e : Expr) (taken : Bool) : Build (Bool × SolverState) :=
  if e.isConstSym then
    match e.parseConstSym with
    | some (kind, sym, .constant _ n value) => do
        let (canonical, adjustment) ← getCanonicalExpr b sym
        let kind := if taken then kind else kind.negate
        -- `getValue` asserts the width
        if n = canonical.bits ∧ sym.bits = canonical.bits then do
          let ranges := S.ranges.addConstraint canonical kind (value.setWidth _)
              (adjustment.setWidth _)
          let S ← { S with ranges := ranges }.record canonical
          return (true, S)
        else .stop
    | _ => .stop
  else return (false, S)

def addNormalConstraint (e : Expr) (taken : Bool) : Build SolverState := do
  let e ← if taken then .ret e else b.createLNot e
  S.record e

/-- `Solver::addConstraint(ExprRef, bool, bool)`, which does nothing with its last argument. -/
def addConstraint : Expr → Bool → Build SolverState
  | .unary _ .lnot e, taken => addConstraint e (!taken)
  | e, taken => do
      let (range, S) ← S.addRangeConstraint b e taken
      if range then return S else S.addNormalConstraint b e taken

/-- Only what is recorded has changed. -/
def OnlyRecords (S S' : SolverState) : Prop :=
  ∃ F ranges, S' = { S with solver := { S.solver with dep_forest_ := F }, ranges := ranges }

/-- What may be recorded: a condition, or a bit vector for the sake of its range sets. -/
structure Recordable (σ : Session) (e : Expr) : Prop where
  wellSorted : e.WellSorted
  inside : ∀ i ∈ e.getDeps, i < σ.inputs.length
  kind : e.isRelational = true ∨ e.isBoolean = false

/-- The constraints on `nodes`, and those that are still to be recorded on `pending`, say
`facts`. -/
structure Records (σ : Session) (facts : Input → Prop) (nodes pending : List Expr)
    (S : SolverState) :
    Prop where
  sorted : DependencyForest.Sorted Expr.getDeps S.solver.dep_forest_ nodes
  inputs : S.solver.inputs_ = σ.inputs
  recordable : ∀ e ∈ nodes, Recordable σ e
  ranged : ∀ e u, S.ranges e u ≠ none → e.IsBV e.bits
  admits : ∀ ρ, facts ρ → ∀ e, S.ranges.Admits e (e.bv ρ e.bits)
  truth : ∀ ρ, facts ρ → ∀ e ∈ nodes ++ pending, e.isRelational = true → e.truth ρ = true
  complete : ∀ ρ, (∀ e ∈ nodes ++ pending, Solver.NodeHolds S.ranges e ρ) → facts ρ
  input : facts σ.input

variable {b S} {S' S₁ : SolverState} {facts : Input → Prop} {nodes pending : List Expr} {e x : Expr}

theorem OnlyRecords.refl (S : SolverState) : OnlyRecords S S :=
  ⟨S.solver.dep_forest_, S.ranges, rfl⟩

theorem nodeHolds_of_relational {ranges : RangeSets} (h : e.isRelational = true) (ρ : Input) :
    Solver.NodeHolds ranges e ρ ↔ e.truth ρ = true := by
  rw [Solver.NodeHolds, if_pos h]

theorem nodeHolds_of_bv {ranges : RangeSets} (h : e.isRelational = false) (ρ : Input) :
    Solver.NodeHolds ranges e ρ ↔ ranges.Admits e (e.bv ρ e.bits) := by
  rw [Solver.NodeHolds, if_neg (by simp [h])]
  rfl

theorem isRelational_of_isBoolean (h : e.isBoolean = false) : e.isRelational = false := by
  cases e with
  | binary _ k => cases k <;> first | rfl | cases h
  | unary _ k => cases k <;> first | rfl | cases h
  | compare => cases h
  | _ => rfl

namespace Records

/-- The facts say that every node holds. -/
theorem holds (h : Records σ facts nodes pending S) {ρ : Input} (hρ : facts ρ)
    (he : e ∈ nodes ++ pending) :
    Solver.NodeHolds S.ranges e ρ := by
  cases hrel : e.isRelational with
  | true => exact (nodeHolds_of_relational hrel ρ).2 (h.truth ρ hρ e he hrel)
  | false => exact (nodeHolds_of_bv hrel ρ).2 (h.admits ρ hρ e)

/-- **The nodes hold for exactly the inputs that satisfy the facts.** -/
theorem holds_iff (h : Records σ facts nodes pending S) (ρ : Input) :
    (∀ e ∈ nodes ++ pending, Solver.NodeHolds S.ranges e ρ) ↔ facts ρ :=
  ⟨h.complete ρ, fun hρ _ he => h.holds hρ he⟩

theorem isNode (h : Records σ facts nodes pending S) (he : e ∈ nodes) :
    Solver.IsNode σ S.ranges e where
  wellSorted := (h.recordable e he).wellSorted
  inside := (h.recordable e he).inside
  isBV u hu := (h.ranged e u hu).isBoolean
  holds := h.holds h.input (List.mem_append_left _ he)

theorem congr {facts' : Input → Prop} (h : Records σ facts nodes pending S)
    (hfacts : ∀ ρ, facts ρ ↔ facts' ρ) : Records σ facts' nodes pending S := by
  obtain rfl : facts = facts' := funext fun ρ => propext (hfacts ρ)
  exact h

/-- What is still to be recorded is recorded. An expression without input bytes says nothing
that has to be kept. -/
theorem record (h : Records σ facts nodes [x] S) (hx : Recordable σ x) :
    Builds σ ok (S.record x) fun S' =>
      OnlyRecords S S' ∧ ∃ nodes', Records σ facts nodes' [] S' := by
  unfold SolverState.record
  cases hc : x.isConcrete with
  | true =>
      have hsame : S.solver.dep_forest_.addConstraint x = .ok S.solver.dep_forest_ := by
        rcases DependencyForest.addConstraint_concrete (F := S.solver.dep_forest_) hc
          with hok | ⟨-, ref, rfl⟩
        · exact hok
        · rcases hx.kind with h | h <;> cases h
      rw [hsame]
      refine .ret ⟨⟨_, _, rfl⟩, nodes,
        { h with truth := fun ρ hρ e he => ?_, complete := fun ρ hρ => ?_ }⟩
      · exact h.truth ρ hρ e (List.mem_append_left _ (by simpa using he))
      · refine h.complete ρ fun e he => ?_
        rcases List.mem_append.1 he with he | he
        · exact hρ e (List.mem_append_left _ he)
        · -- it holds for the input of the session
          obtain rfl := List.mem_singleton.1 he
          have hholds : Solver.NodeHolds S.ranges e σ.input := h.holds h.input (by simp)
          unfold Solver.NodeHolds Expr.truth Expr.bv at hholds ⊢
          rwa [Expr.value_of_isConcrete hc ρ σ.input]
  | false =>
      obtain ⟨F', hadd, hF'⟩ := h.sorted.addConstraint hc
      rw [hadd]
      have hnodes : nodes ++ [x] ++ [] = nodes ++ [x] := List.append_nil _
      refine .ret ⟨⟨F', _, rfl⟩, nodes ++ [x], ?_⟩
      exact
        { sorted := hF'
          inputs := h.inputs
          recordable := fun e he => (List.mem_append.1 he).elim (h.recordable e)
            fun he => List.mem_singleton.1 he ▸ hx
          ranged := h.ranged
          admits := h.admits
          truth := fun ρ hρ e he => h.truth ρ hρ e (hnodes ▸ he)
          complete := fun ρ hρ => h.complete ρ fun e he => hρ e (hnodes.symm ▸ he)
          input := h.input }

/-- A comparison goes to the range sets of `x`. -/
theorem constrain {fact : Input → Prop} {kind : CompareKind} {rhs adjustment : BitVec x.bits}
    (h : Records σ facts nodes [] S) (hx : x.IsBV x.bits)
    (hfact : ∀ ρ, fact ρ ↔ kind.holds (adjustment + x.bv ρ x.bits) rhs = true)
    (hinput : fact σ.input) :
    Records σ (fun ρ => facts ρ ∧ fact ρ) nodes [x]
      { S with ranges := S.ranges.addConstraint x kind rhs adjustment } := by
  have hadmits (ρ : Input) : (S.ranges.addConstraint x kind rhs adjustment).Admits x
      (x.bv ρ x.bits) ↔
      S.ranges.Admits x (x.bv ρ x.bits) ∧ fact ρ :=
    (RangeSets.admits_addConstraint hx.pos ⟨_, (hfact _).1 hinput⟩).trans
      (and_congr_right fun _ => (hfact ρ).symm)
  have hother {e : Expr} (he : e ≠ x) (v : BitVec e.bits) :
      (S.ranges.addConstraint x kind rhs adjustment).Admits e v ↔ S.ranges.Admits e v := by
    unfold RangeSets.Admits
    rw [RangeSets.addConstraint_of_ne he]
  have hrel : x.isRelational = false := isRelational_of_isBoolean hx.isBoolean
  refine
    { sorted := h.sorted
      inputs := h.inputs
      recordable := h.recordable
      ranged := fun e u hne => ?_
      admits := fun ρ hρ e => ?_
      truth := fun ρ hρ e he htrue => ?_
      complete := fun ρ hρ => ?_
      input := ⟨h.input, hinput⟩ }
  · rcases RangeSets.addConstraint_ne_none hne with rfl | hne
    · exact hx
    · exact h.ranged e u hne
  · by_cases he : e = x
    · subst he
      exact (hadmits ρ).2 ⟨h.admits ρ hρ.1 e, hρ.2⟩
    · exact (hother he _).2 (h.admits ρ hρ.1 e)
  · rcases List.mem_append.1 he with he | he
    · exact h.truth ρ hρ.1 e (by simpa using he) htrue
    · rw [List.mem_singleton.1 he, hrel] at htrue
      cases htrue
  · obtain ⟨hold, hnew⟩ := (hadmits ρ).1 ((nodeHolds_of_bv hrel ρ).1 (hρ x (by simp)))
    refine ⟨h.complete ρ fun e he => ?_, hnew⟩
    have hnode := hρ e (List.mem_append_left _ (by simpa using he))
    cases hrel' : e.isRelational with
    | true => exact (nodeHolds_of_relational hrel' ρ).2 ((nodeHolds_of_relational hrel' ρ).1 hnode)
    | false =>
        have hnode := (nodeHolds_of_bv hrel' ρ).1 hnode
        refine (nodeHolds_of_bv hrel' ρ).2 ?_
        by_cases he : e = x
        · subst he
          exact hold
        · exact (hother he _).1 hnode

/-- A condition is to be recorded as it is. -/
theorem condition {fact : Input → Prop} (h : Records σ facts nodes [] S)
    (hrel : x.isRelational = true)
    (hfact : ∀ ρ, fact ρ ↔ x.truth ρ = true) (hinput : fact σ.input) :
    Records σ (fun ρ => facts ρ ∧ fact ρ) nodes [x] S := by
  refine { h with admits := fun ρ hρ => h.admits ρ hρ.1, truth := fun ρ hρ e he htrue => ?_,
                  complete := fun ρ hρ => ⟨h.complete ρ fun e he => ?_, ?_⟩, input :=
                    ⟨h.input, hinput⟩ }
  · rcases List.mem_append.1 he with he | he
    · exact h.truth ρ hρ.1 e (by simpa using he) htrue
    · rw [List.mem_singleton.1 he]
      exact (hfact ρ).1 hρ.2
  · exact hρ e (List.mem_append_left _ (by simpa using he))
  · exact (hfact ρ).2 ((nodeHolds_of_relational hrel ρ).1 (hρ x (by simp)))

end Records

/-- The kind that a comparison is recorded with. -/
theorem taken_holds (kind : CompareKind) (taken : Bool) {n : Nat} (v w : BitVec n) :
    (if taken then kind else kind.negate).holds v w = true ↔ kind.holds v w = taken := by
  cases taken with
  | true => rfl
  | false =>
      have hnegate := FlagHistory.negate_holds kind true v w
      rw [if_pos rfl] at hnegate
      simp [hnegate]

section Adding

variable {taken : Bool} (hb : Transparent σ ok b) (h : Records σ facts nodes [] S) (he : e.IsBool)
  (hinside : ∀ i ∈ e.getDeps, i < σ.inputs.length) (htaken : e.truth σ.input = taken)
include hb h he hinside htaken

/-- What a condition adds to the path condition. -/
abbrev Extends (σ : Session) (S : SolverState) (facts : Input → Prop) (S' : SolverState) : Prop :=
  OnlyRecords S S' ∧ ∃ nodes', Records σ facts nodes' [] S'

theorem addRangeConstraint_records (hc : e.isConstSym = true) :
    Builds σ ok (S.addRangeConstraint b e taken) fun x =>
      x.1 = true ∧ Extends σ S (fun ρ => facts ρ ∧ e.truth ρ = taken) x.2 := by
  obtain ⟨kind, sym, ref, n, value, hparse, hcompares⟩ := Expr.parseConstSym_eq he hc
  have hsym : sym.IsBV n := hcompares.isBV
  obtain rfl : sym.bits = n := hsym.bits
  unfold addRangeConstraint
  rw [if_pos hc, hparse]
  refine Total.bind (getCanonicalExpr_builds hb.sound hsym) ?_
  rintro ⟨canonical, adjustment⟩ ⟨hcanonical, hdeps, hbv⟩
  have hcanonical : canonical.IsBV sym.bits := hcanonical
  have hwidth : sym.bits = canonical.bits := hcanonical.bits.symm
  show Builds σ ok (if sym.bits = canonical.bits ∧ sym.bits = canonical.bits then _ else .stop) _
  rw [if_pos ⟨hwidth, hwidth⟩]
  -- all widths are that of the canonical expression
  have hfact (ρ : Input) : e.truth ρ = taken ↔ (if taken then kind else kind.negate).holds
      (adjustment.setWidth canonical.bits + canonical.bv ρ canonical.bits)
        (value.setWidth canonical.bits) = true := by
    have hsum (m : Nat) (v w : BitVec m) (hm : m = canonical.bits)
        (hv : sym.bv ρ m = w + canonical.bv ρ m) :
        (kind.holds (sym.bv ρ m) v = taken ↔ (if taken then kind else kind.negate).holds
          (w.setWidth canonical.bits + canonical.bv ρ canonical.bits)
            (v.setWidth canonical.bits) = true) := by
      subst hm
      rw [BitVec.setWidth_eq, BitVec.setWidth_eq, taken_holds, hv]
    rw [hcompares.truth ρ]
    exact hsum sym.bits value adjustment hwidth (hbv ρ trivial)
  have hconstrained := h.constrain (hwidth ▸ hcanonical) hfact htaken
  have hrecordable : Recordable σ canonical := by
    refine ⟨hcanonical.wellSorted, fun i hi => hinside i ?_, .inr hcanonical.isBoolean⟩
    rw [← hcompares.getDeps]
    exact hdeps i hi
  refine Total.bind (hconstrained.record hrecordable) fun S' ⟨honly, hrecords⟩ =>
    .ret ⟨rfl, ?_, hrecords⟩
  obtain ⟨F, ranges, rfl⟩ := honly
  exact ⟨F, ranges, rfl⟩

theorem addNormalConstraint_records (hrel : e.isRelational = true) (hcore : e.core = e) :
    Builds σ ok (S.addNormalConstraint b e taken)
      (Extends σ S fun ρ => facts ρ ∧ e.truth ρ = taken) := by
  unfold addNormalConstraint
  cases taken with
  | true =>
      exact (h.condition hrel (fun ρ => Iff.rfl) htaken).record ⟨he.wellSorted, hinside, .inl hrel⟩
  | false =>
      refine Total.bind (hb.lnot hrel hcore) ?_
      rintro _ ⟨ref, rfl⟩
      have hnot := Expr.isBool_lnot he ref
      refine (h.condition rfl (fun ρ => ?_) htaken).record ⟨hnot.wellSorted, hinside, .inl rfl⟩
      rw [Expr.truth_lnot he ref, Bool.not_eq_true']

/-- **A condition is recorded**: the path condition says besides that it has come out as it has. -/
theorem addConstraint_records (hrel : e.core.isRelational = true) :
    Builds σ ok (S.addConstraint b e taken) (Extends σ S fun ρ => facts ρ ∧ e.truth ρ = taken) := by
  fun_induction Expr.core e generalizing taken with
  | case1 ref x ih =>
      have hx : x.IsBool := ⟨he.wellSorted.1, he.wellSorted.2⟩
      have htruth (ρ : Input) (value : Bool) : (Expr.unary ref .lnot x).truth ρ = value ↔
          x.truth ρ = !value := by
        rw [Expr.truth_lnot hx ref]
        cases value <;> simp
      refine (ih hx hinside ((htruth _ _).1 htaken) hrel).mono
        fun S' ⟨honly, nodes', hrecords⟩ => ?_
      exact ⟨honly, nodes', hrecords.congr fun ρ => and_congr_right fun _ => (htruth ρ taken).symm⟩
  | case2 x hnot =>
      have hadd : S.addConstraint b x taken = (do
          let (range, S) ← S.addRangeConstraint b x taken
          if range then return S else S.addNormalConstraint b x taken) := by
        cases x with
        | unary ref k y => cases k <;> first | rfl | exact absurd rfl (hnot ref y)
        | _ => rfl
      have hcore : x.core = x := by
        cases x with
        | unary ref k y => cases k <;> first | rfl | exact absurd rfl (hnot ref y)
        | _ => rfl
      rw [hadd]
      cases hc : x.isConstSym with
      | true =>
          refine Total.bind (addRangeConstraint_records hb h he hinside htaken hc) ?_
          rintro ⟨_, S'⟩ ⟨rfl, hextends⟩
          exact .ret hextends
      | false =>
          have hrange : S.addRangeConstraint b x taken = .ret (false, S) := by
            rw [addRangeConstraint, if_neg (by simp [hc])]
            rfl
          rw [hrange]
          exact addNormalConstraint_records hb h he hinside htaken hrel hcore

end Adding

end SolverState

end Qsym
