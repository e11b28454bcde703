import Qsym.Builder.Sound

/-!
# Qsym.Builder.Condition

**Conditions** through `g_expr_builder`, the way the solver builds them: comparisons, and
the connectives over them. None of these calls comes to a division, so the symbolic chain
is right about them on every input, and so is the chain with pruning while it finds
everything interesting.

While it finds nothing interesting, the chain with pruning is right on the input of the
session alone. What tells the two apart is the negation of a comparison: pruned, it is a
literal (`Tests`).
-/

namespace Qsym

open Procedure Qsym.Expr

variable {σ : Session} {ok : MethodCall → Prop} {E : Input → Prop} {folds : Bool}
variable {next : ExprBuilder} {e x : Expr} {c : Call}

/-- `Sound`, for the calls whose rewriting never comes to a division. -/
abbrev SoundStructurally : (σ : Session) → (ok : MethodCall → Prop) → (E : Input → Prop) →
    ExprBuilder → Prop :=
  SoundOn fun c => c.isStructural = true

/-- While everything is interesting nothing is pruned. -/
theorem prune_completes_of_interesting (hi : ∀ tick, σ.isInteresting tick = true)
    (h : CompletesOn σ False ok E folds next) :
    CompletesOn σ False ok E folds (.prune :: next) := by
  intro c hc ht
  refine completes_create fun _ => ?_
  have hnext := h.completes hc ht
  have hprune :
      Completes σ False ok (next.create c >>= PruneExprBuilder.prune σ) (c.Meets E folds) := by
    refine Terminates.bind hnext fun e he => completes_ask fun w => ?_
    rw [if_pos (hi w.tick)]
    exact Terminates.ret he
  cases c with
  | ext | unary | binary | ite => exact hprune
  | _ => exact hnext

theorem prunedChain_soundStructurally
    (h : CompletesOn σ False ok E true [.common, .constantFolding, .prune, .cache, .base]) :
    SoundStructurally σ ok E PruneExprBuilder.chain := by
  intro c hs hc
  have hP : CommutativeExprBuilder.Closed fun c => c.isStructural = true :=
    { binary := fun {k _ _} hk => by cases k <;> exact hk
      compare := fun _ => rfl
      sub := fun hk => nomatch hk }
  exact (CommutativeExprBuilder.create_agrees hP
    (fun c hs hc => symbolic_structural h hs hc) hs hc).total

/-! ### Runs that return -/

/-- A program over the bytes of the input that returns was not stopped by the evaluator. -/
theorem Build.Stays.evaluates {α : Type} {p : Build α} {P : α → Prop} {w w' : World} {a : α}
    (h : p.Stays (· < σ.inputs.length) True P) (hr : Runs (body σ) p w a w') :
    Safe (body σ) σ.Evaluates p w := by
  intro m hm
  refine ⟨h.safe σ w m hm, fun hb => ?_⟩
  by_contra ht
  obtain ⟨_, r, _, n, hn⟩ := hm.runs hr
  obtain ⟨b, c⟩ := m
  obtain rfl : b = CEB := hb
  rw [CEB, constantFolding_of_traps _ (by simpa using ht)] at hn
  cases hn

/-! ### The negation of a comparison -/

/-- A node with the children of a call is the node of the call. -/
theorem eq_node_of_equalShallowly {ref : Nat} (hl : c.isLeaf = false)
    (h : x.equalShallowly (c.node ref) = true) : ∃ ref', x = c.node ref' := by
  cases c with
  | bool | constant | read => cases hl
  | _ => cases x <;> simp_all [Call.node, equalShallowly]

/-- The cache answers with the node of the call. -/
theorem cache_node (hl : c.isLeaf = false) (hasserted : c.asserted = true)
    (hx : ∀ e i b, c ≠ .extract e i b) :
    Builds σ ok (ExprBuilder.create [.cache, .base] c) (fun x => ∃ ref, x = c.node ref) := by
  have hbase : Builds σ ok (ExprBuilder.create [.base] c) (fun x => ∃ ref, x = c.node ref) := by
    refine builds_create fun _ => ?_
    cases c with
    | extract e i b => exact absurd rfl (hx e i b)
    | read => cases hl
    | _ => exact builds_makeShared hasserted fun ref => ⟨ref, rfl⟩
  have hfind : Builds σ ok (ExprBuilder.create [.base] c >>= CacheExprBuilder.findOrInsert σ)
      (fun x => ∃ ref, x = c.node ref) := by
    refine Total.bind hbase ?_
    rintro _ ⟨ref, rfl⟩
    refine builds_ask fun w => ?_
    cases hf : w.cache.find (σ.expired w.tick) (c.node ref) with
    | none => exact Total.get fun w _ => Total.set trivial (Total.ret ⟨ref, rfl⟩)
    | some x =>
        have hfound := List.find?_some hf
        rw [Bool.and_eq_true] at hfound
        exact Total.ret (eq_node_of_equalShallowly hl hfound.2)
  refine builds_create fun _ => ?_
  cases c with
  | bool | constant | read => cases hl
  | _ => exact hfind

/-- What the constructor of a node does not take is not answered. -/
theorem cache_stops (hl : c.isLeaf = false)
    (h : Yields (body σ) ok (body σ ⟨[.base], c⟩) fun _ => False) :
    Yields (body σ) ok (ExprBuilder.create [.cache, .base] c) fun _ => False := by
  have hfind : Yields (body σ) ok (ExprBuilder.create [.base] c >>= CacheExprBuilder.findOrInsert σ)
      fun _ => False :=
    (Yields.call fun _ => h).bind fun _ hfalse => hfalse.elim
  refine Yields.call fun _ => ?_
  cases c with
  | bool | constant | read => cases hl
  | _ => exact hfind

section Rewriting

variable {below : ExprBuilder} {Q : Expr → Prop}

/-- The rewriting hands a comparison with a constant on, mirrored. -/
theorem createEqual_handsOn {imm : Expr} (he : e.isBoolean = false) (hc : e.isConstant = false)
    (hi : imm.isConstant = true)
    (h : Builds σ ok (ExprBuilder.create below (.compare .equal imm e)) Q) :
    Builds σ ok (ExprBuilder.createEqual
      (.commutative :: .symbolic :: .common :: .constantFolding :: below) e imm) Q := by
  obtain ⟨ref, n, v, rfl⟩ := isConstant_iff.1 hi
  have hne : (constant ref n v) ≠ e := by
    rintro rfl
    cases hc
  refine builds_create fun _ => ?_
  show Builds σ ok (CommutativeExprBuilder.createCompare _ _ .equal e (constant ref n v)) _
  rw [CommutativeExprBuilder.createCompare, if_pos ⟨hc, rfl⟩]
  refine builds_create fun _ => ?_
  show Builds σ ok (CommutativeExprBuilder.createCompare
    (.commutative :: .symbolic :: .common :: .constantFolding :: below)
    (.symbolic :: .common :: .constantFolding :: below) .equal (constant ref n v) e) _
  rw [CommutativeExprBuilder.createCompare, if_neg fun hc => by cases hc.1]
  refine builds_create fun _ => ?_
  show Builds σ ok (SymbolicExprBuilder.createEqual _ _ (constant ref n v) e) _
  rw [SymbolicExprBuilder.createEqual, if_neg hne]
  refine builds_create fun _ => builds_create fun _ => ?_
  show Builds σ ok (ConstantFoldingExprBuilder.createCompare _ _ .equal (constant ref n v) e) _
  cases e with
  | constant => cases hc
  | bool => cases he
  | _ => exact h

/-- It hands the negation of a comparison on. -/
theorem createLNot_handsOn {ref : Nat} {k : CompareKind} {l r : Expr}
    (h : Builds σ ok (ExprBuilder.create below (.unary .lnot (.compare ref k l r))) Q) :
    Builds σ ok (ExprBuilder.createLNot
      (.commutative :: .symbolic :: .common :: .constantFolding :: below) (.compare ref k l r)) Q :=
  builds_create fun _ => builds_create fun _ => builds_create fun _ => builds_create fun _ => h

end Rewriting

/-- Testing whether a bit vector has a value, and negating the test: whether the negation
comes out as a literal. -/
def NegatesTo (σ : Session) (ok : MethodCall → Prop) (b : ExprBuilder) (literal : Bool) : Prop :=
  ∀ {n : Nat} {e imm : Expr}, e.IsBV n → imm.IsBV n → e.isConstant = false → imm.isConstant = true →
    Builds σ ok (b.createEqual e imm) fun x =>
      Builds σ ok (b.createLNot x) fun y => y.isLiteral = literal

/-- What a builder offers for conditions. -/
structure Tests (σ : Session) (ok : MethodCall → Prop) (E : Input → Prop) (b : ExprBuilder)
    (literal : Bool) : Prop where
  sound : SoundStructurally σ ok E b
  constant : ∀ {n : Nat} (v : BitVec n), 0 < n →
    Builds σ ok (b.create (.constant n v)) fun x => ∃ ref, x = .constant ref n v
  negates : NegatesTo σ ok b literal

/-- A comparison passes `PruneExprBuilder`, so what decides is its negation. -/
theorem negatesTo_of_below {below : ExprBuilder} {literal : Bool}
    (hcompare : ∀ {l r : Expr}, l.bits = r.bits →
      Builds σ ok (ExprBuilder.create below (.compare .equal l r))
        fun x => ∃ ref, x = .compare ref .equal l r)
    (hlnot : ∀ {ref : Nat} {l r : Expr}, (Expr.compare ref .equal l r).WellSorted →
      Builds σ ok (ExprBuilder.create below (.unary .lnot (.compare ref .equal l r)))
        fun y => y.isLiteral = literal) :
    NegatesTo σ ok (.commutative :: .symbolic :: .common :: .constantFolding :: below) literal := by
  intro n e imm he himm hc hi
  refine createEqual_handsOn he.isBoolean hc hi ((hcompare (himm.bits.trans he.bits.symm)).mono ?_)
  rintro _ ⟨ref, rfl⟩
  refine createLNot_handsOn (hlnot ?_)
  exact ⟨himm.wellSorted, he.wellSorted, himm.bits.trans he.bits.symm,
    himm.isBoolean.trans he.isBoolean.symm, fun _ => himm.isBoolean⟩

theorem cache_compare {l r : Expr} (hb : l.bits = r.bits) :
    Builds σ ok (ExprBuilder.create [.cache, .base] (.compare .equal l r))
      fun x => ∃ ref, x = .compare ref .equal l r :=
  cache_node rfl (by simpa [Call.asserted] using hb) nofun

theorem cache_lnot :
    Builds σ ok (ExprBuilder.create [.cache, .base] (.unary .lnot x))
      fun y => ∃ ref, y = .unary ref .lnot x :=
  cache_node rfl rfl nofun

theorem constant_builds (h : RefinesOn σ ok E true next) {n : Nat} (v : BitVec n) (hn : 0 < n) :
    Builds σ ok (ExprBuilder.create (.commutative :: .symbolic :: next) (.constant n v))
      fun x => ∃ ref, x = .constant ref n v :=
  builds_create fun _ => builds_create fun _ => h.constant hn v

/-- The symbolic chain. -/
theorem chain_tests (σ : Session) (E : Input → Prop) :
    Tests σ anyCall E SymbolicExprBuilder.chain false where
  sound _ hs hc := chain_structural σ E hs hc
  constant := constant_builds (lower_refines σ E)
  negates := by
    refine negatesTo_of_below cache_compare fun _ => cache_lnot.mono ?_
    rintro _ ⟨ref, rfl⟩
    rfl

/-- The layers below the rewriting ones, while everything is interesting. -/
theorem pruned_completes_of_interesting (hi : ∀ tick, σ.isInteresting tick = true)
    (E : Input → Prop) :
    CompletesOn σ False ok E true [.common, .constantFolding, .prune, .cache, .base] :=
  common_completes (constantFolding_completes
    (prune_completes_of_interesting hi (cache_completes (base_completes σ E []))))

/-- The chain with pruning, while everything is interesting. -/
theorem prunedChain_tests_of_interesting (hi : ∀ tick, σ.isInteresting tick = true)
    (E : Input → Prop) : Tests σ anyCall E PruneExprBuilder.chain false where
  sound := prunedChain_soundStructurally (pruned_completes_of_interesting hi E)
  constant := constant_builds (pruned_completes_of_interesting hi E).refines
  negates := by
    refine negatesTo_of_below (fun hb => builds_create fun _ => cache_compare hb) fun _ => ?_
    refine builds_create fun _ => Total.bind cache_lnot ?_
    rintro _ ⟨ref, rfl⟩
    refine builds_ask fun w => ?_
    rw [if_pos (hi w.tick)]
    exact Total.ret rfl

/-- The chain with pruning, while nothing is interesting. -/
theorem prunedChain_tests_of_dull (hi : ∀ tick, σ.isInteresting tick = false) :
    Tests σ σ.Evaluates (· = σ.input) PruneExprBuilder.chain true where
  sound := prunedChain_soundStructurally (pruned_completes_of_evaluates fun _ hm => hm)
  constant := constant_builds (pruned_completes_of_evaluates fun _ hm => hm).refines
  negates := by
    refine negatesTo_of_below (fun hb => builds_create fun _ => cache_compare hb) ?_
    intro ref l r hw
    refine builds_create fun hok => Total.bind (cache_lnot.over hok.1) ?_
    rintro _ ⟨hover, ref', rfl⟩
    have hlnot : (Expr.unary ref' .lnot (.compare ref .equal l r)).WellSorted := ⟨hw, rfl⟩
    refine builds_ask fun w => ?_
    rw [if_neg (by simp [hi])]
    have hreads := over_iff_getDeps.1 hover
    exact (Terminates.total (evaluate_completes hlnot (fun i hi => .inr (hreads i hi))
      (.inr fun c hc => hc.2 rfl))).mono fun y hy => hy.1

end Qsym
