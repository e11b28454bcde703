import Qsym.Builder.Chain
import Qsym.Builder.Evaluate
import Qsym.Builder.Within

/-!
# Qsym.Builder.Pruned

The chain with `PruneExprBuilder`. A pruned node is a literal with the value of the
node on the input of the session, so at that one input, and only there, the chain is
right: `prune_completes` passes the contract on, and the layers above are right over it
as they are over the cache. Pruning evaluates, so this needs expressions that the
input covers and that do not divide; `Builder.Within` says they remain so.

Two builds of one program are then compared step by step (`build_pruned`).
-/

namespace Qsym

open Procedure Qsym.Expr

/-- What a session can evaluate without a condition: the reads are inside the input
and nothing is divided. -/
abbrev Expr.Covered (σ : Session) (e : Expr) : Prop :=
  e.Over (· < σ.inputs.length) False

/-- The calls on covered expressions. -/
abbrev Session.Covers (σ : Session) (m : MethodCall) : Prop :=
  m.call.plain.Covered σ

/-- The calls that evaluation does not stop at: the reads are inside the input, and the
evaluator divides nothing by zero. -/
def Session.Evaluates (σ : Session) (m : MethodCall) : Prop :=
  m.call.plain.Over (· < σ.inputs.length) True ∧ (m.builder = CEB → m.call.traps = false)

section Layers

variable {σ : Session} {folds : Bool} {next : ExprBuilder}

theorem Expr.Covered.getDeps_lt {e : Expr} (h : e.Covered σ) :
    ∀ i ∈ e.getDeps, i < σ.inputs.length :=
  over_iff_getDeps.1 (h.mono (fun _ hi => hi) fun _ => trivial)

theorem Expr.Covered.evaluate_builds {e : Expr} (h : e.Covered σ) (hw : e.WellSorted)
    {ok : MethodCall → Prop} :
    Builds σ ok (e.evaluate σ) (fun x => x.isLiteral = true ∧ Agrees (· = σ.input) x e) :=
  (Qsym.evaluate_builds hw h.getDeps_lt (h.divisorsNonzero _)).of_true

theorem Call.isBoolean_of_isMeasured {c : Call} (h : c.isMeasured = true) :
    c.plain.isBoolean = false := by
  cases c with
  | binary k l r => cases k <;> first | rfl | exact absurd h (by simp [isMeasured, kindWeight])
  | unary k e => cases k <;> first | rfl | cases h
  | bool | read | ext | compare | ite => cases h
  | _ => rfl

/-- A literal of the right value answers a call. -/
theorem Call.Meets.of_literal {c : Call} {e x : Expr} {E : Input → Prop} (h : c.Meets E folds e)
    (hl : c.isLeaf = false) (hx : x.isLiteral = true) (ha : Agrees E x e) :
    c.Meets E folds x := by
  have hax := ha.trans h.agrees
  have hconst : c.isMeasured = true → ∃ ref n v, x = .constant ref n v := fun hm =>
    CEB.constant_of_literal hx (hax.isBoolean.trans (isBoolean_of_isMeasured hm))
  refine ⟨hax, fun h => absurd h (by simp [hl]), fun hm => ?_, fun _ hm _ => ?_⟩
  · obtain ⟨ref, n, v, rfl⟩ := hconst hm
    simp
  · obtain ⟨ref, n, v, rfl⟩ := hconst hm
    rfl

/-- What a call on expressions over some bytes returns is over the same bytes. -/
theorem Builds.over {b : ExprBuilder} {c : Call} {ok : MethodCall → Prop} {Q : Expr → Prop}
    {reads : Nat → Prop} {divides : Prop} (hc : c.plain.Over reads divides)
    (h : Builds σ ok (b.create c) Q) :
    Builds σ ok (b.create c) (fun e => e.Over reads divides ∧ Q e) := by
  intro w hw hsafe
  obtain ⟨e, w', hr, -, hq⟩ := h w hw hsafe
  exact ⟨e, w', hr, trivial, (next_stays hc).result hr, hq⟩

/-- What holds no division is folded exactly. -/
theorem foldsExactly_of_over {reads : Nat → Prop} {m : MethodCall}
    (h : m.call.plain.Over reads False) (E : Input → Prop) : FoldsExactly E m := by
  obtain ⟨b, c⟩ := m
  cases c with
  | binary k l r =>
      have hk : k.isDivision = false := by simpa using h.1
      refine ⟨by simp [Call.traps, hk], ?_⟩
      split
      next heq =>
          cases heq
          cases hk
      next => trivial
  | _ =>
      refine ⟨rfl, ?_⟩
      split
      next heq => cases heq
      next => trivial

theorem foldsExactly_of_covers {m : MethodCall} (h : σ.Covers m) (E : Input → Prop) :
    FoldsExactly E m :=
  foldsExactly_of_over h E

theorem Session.Covers.evaluates {m : MethodCall} (h : σ.Covers m) : σ.Evaluates m :=
  ⟨h.mono (fun _ hi => hi) fun _ => trivial, fun _ => (foldsExactly_of_covers h (· = σ.input)).1⟩

/-- So it does in every state. -/
theorem Completes.over {b : ExprBuilder} {c : Call} {stops : Prop} {ok : MethodCall → Prop}
    {Q : Expr → Prop} {reads : Nat → Prop} {divides : Prop} (hc : c.plain.Over reads divides)
    (h : Completes σ stops ok (b.create c) Q) :
    Completes σ stops ok (b.create c) (fun e => e.Over reads divides ∧ Q e) :=
  Terminates.keeps (body_stays σ) h (next_stays hc)

section Prune

variable {stops : Prop} {ok : MethodCall → Prop} {E : Input → Prop}
variable (hE : ∀ ρ, E ρ → ρ = σ.input)
variable (hok : ∀ m, ok m → m.call.plain.Over (fun i => stops ∨ i < σ.inputs.length) True ∧
  (m.builder = CEB → m.call.traps = false))

include hE hok

/-- Pruning keeps the contract at the input of the session. Whether a read past the input
stops it or does not occur is all the same. -/
theorem prune_completes (h : CompletesOn σ stops ok E folds next) :
    CompletesOn σ stops ok E folds (.prune :: next) := by
  intro c hc ht
  refine completes_create fun hm => ?_
  have hnext := h.completes hc ht
  have hprune : c.isLeaf = false →
      Completes σ stops ok (next.create c >>= PruneExprBuilder.prune σ) (c.Meets E folds) := by
    intro hl
    refine Terminates.bind (Completes.over (hok _ hm).1 hnext) ?_
    rintro e ⟨hover, he⟩
    refine completes_ask fun w => ?_
    split
    · exact Terminates.ret he
    · refine (evaluate_completes he.agrees.wellSorted (over_iff_getDeps.1 hover)
        (.inr fun c hc => (hok _ hc).2 rfl)).mono ?_
      rintro x ⟨hx, ha⟩
      exact he.of_literal hl hx (ha.anti hE)
  cases c with
  | ext | unary | binary | ite => exact hprune rfl
  | _ => exact hnext

/-- The layers below the rewriting ones, with pruning. -/
theorem pruned_completes :
    CompletesOn σ stops ok E true [.common, .constantFolding, .prune, .cache, .base] :=
  common_completes (constantFolding_completes
    (prune_completes hE hok (cache_completes (base_completes σ E []))))

end Prune

/-- The layers with pruning, as far as evaluation goes. -/
theorem pruned_completes_of_evaluates {ok : MethodCall → Prop} (hok : ∀ m, ok m → σ.Evaluates m) :
    CompletesOn σ False ok (· = σ.input) true
      [.common, .constantFolding, .prune, .cache, .base] :=
  pruned_completes (fun _ h => h) fun m hm =>
    ⟨(hok m hm).1.mono (fun _ hi => .inr hi) fun _ => trivial, (hok m hm).2⟩

/-- The whole chain with pruning, at the input of the session. -/
theorem prunedChain_agrees {c : Call} (hcov : c.plain.Covered σ) (hc : c.plain.WellSorted) :
    Builds σ σ.Covers (PruneExprBuilder.chain.create c)
      (fun e => Agrees (· = σ.input) e c.plain) := by
  have hP : CommutativeExprBuilder.Closed fun c => c.isSDiv = false :=
    { binary := fun {k _ _} hk => by cases k <;> exact hk
      compare := fun _ => rfl
      sub := fun _ => ⟨rfl, fun _ => rfl⟩ }
  have hs : c.isSDiv = false := by
    cases c with
    | binary k l r => cases k <;> first | rfl | exact (hcov.1 rfl).elim
    | _ => rfl
  exact (CommutativeExprBuilder.create_agrees hP (fun c hs hc =>
    symbolic_meets (pruned_completes_of_evaluates fun _ hm => Session.Covers.evaluates hm)
      (fun _ hm => (foldsExactly_of_covers hm _).pointwise) hs hc) hs hc).total

/-- One call through the chain with pruning. -/
theorem prunedChain_create {c : Call} (hcov : c.plain.Covered σ) (hc : c.plain.WellSorted)
    (w : World) :
    ∃ e w', Runs (body σ) (PruneExprBuilder.chain.create c) w e w' ∧ e.Covered σ ∧
      Agrees (· = σ.input) e c.plain := by
  have hstays : Call.Stays _ _ (PruneExprBuilder.chain.create c) := next_stays hcov
  have hsafe := hstays.safe σ w
  obtain ⟨e, w', hr, -, he, ha⟩ := (prunedChain_agrees hcov hc).over hcov w trivial hsafe
  exact ⟨e, w', hr, he, ha⟩

end Layers

/-! ### Programs of calls -/

/-- One `create*` call of a program. Its operands are results of earlier calls, named
by their positions. -/
inductive Step
  | bool (value : Bool)
  | constant (bits : Nat) (value : BitVec bits)
  | read (off : Nat)
  | concat (l r : Nat)
  | extract (e index bits : Nat)
  | ext (kind : ExtKind) (e bits : Nat)
  | unary (kind : UnaryKind) (e : Nat)
  | binary (kind : BinaryKind) (l r : Nat)
  | compare (kind : CompareKind) (l r : Nat)
  | ite (cond t f : Nat)
  deriving DecidableEq, Repr

namespace Step

/-- The call on the expressions built so far. -/
def call (built : List Expr) : Step → Option Call
  | bool b => some (.bool b)
  | constant n v => some (.constant n v)
  | read off => some (.read off)
  | concat l r => do return .concat (← built[l]?) (← built[r]?)
  | extract e i b => do return .extract (← built[e]?) i b
  | ext k e b => do return .ext k (← built[e]?) b
  | unary k e => do return .unary k (← built[e]?)
  | binary k l r => do return .binary k (← built[l]?) (← built[r]?)
  | compare k l r => do return .compare k (← built[l]?) (← built[r]?)
  | ite c t f => do return .ite (← built[c]?) (← built[t]?) (← built[f]?)

/-- The step reads inside an input of `n` bytes and is no division. -/
def isCovered (n : Nat) : Step → Bool
  | read off => off < n
  | binary k _ _ => !k.isDivision
  | _ => true

end Step

/-- Run a program of calls on a builder. -/
def ExprBuilder.build (b : ExprBuilder) : List Step → List Expr → Build (List Expr)
  | [], built => .ret built
  | s :: steps, built =>
      match s.call built with
      | none => .stop
      | some c => do
          let e ← b.create c
          b.build steps (built ++ [e])

/-- `BaseExprBuilder` alone. -/
def BaseExprBuilder.chain : ExprBuilder :=
  [.base]

section Programs

variable {σ : Session} {built built' : List Expr}

/-- The simulation: `e'` is what pruning left of `e`. -/
structure IsPruned (σ : Session) (e' e : Expr) : Prop where
  covered : e.Covered σ
  wellSorted : e.WellSorted
  covered' : e'.Covered σ
  agrees : Agrees (· = σ.input) e' e

theorem getElem?_of_forall₂ {R : Expr → Expr → Prop} (h : List.Forall₂ R built' built) {i : Nat}
    {e : Expr} (he : built[i]? = some e) : ∃ e', built'[i]? = some e' ∧ R e' e := by
  induction h generalizing i with
  | nil => simp at he
  | cons hx _ ih =>
      cases i with
      | zero =>
          cases he
          exact ⟨_, rfl, hx⟩
      | succ i => exact ih he

/-- A step makes corresponding calls on corresponding operands. -/
theorem Step.call_isPruned {s : Step} (hs : s.isCovered σ.inputs.length = true)
    (h : List.Forall₂ (IsPruned σ) built' built) {c : Call} (hc : s.call built = some c)
    (hw : c.plain.WellSorted) :
    ∃ c', s.call built' = some c' ∧ IsPruned σ c'.plain c.plain := by
  cases s with
  | bool | constant =>
      cases hc
      exact ⟨_, rfl, trivial, hw, trivial, .refl hw⟩
  | read off =>
      cases hc
      have hoff : off < σ.inputs.length := by simpa [isCovered] using hs
      exact ⟨_, rfl, hoff, hw, hoff, .refl hw⟩
  | extract e i b | ext k e b | unary k e =>
      simp only [call, Option.bind_eq_bind, Option.bind_eq_some_iff, Option.pure_def,
        Option.some.injEq] at hc
      obtain ⟨x, hx, rfl⟩ := hc
      obtain ⟨x', hx', p⟩ := getElem?_of_forall₂ h hx
      simp only [call, hx', Option.bind_eq_bind, Option.bind_some, Option.pure_def,
        Option.some.injEq, exists_eq_left']
      refine ⟨p.covered, hw, p.covered', ?_⟩
      first
        | exact p.agrees.extract hw 0
        | exact p.agrees.ext hw 0
        | exact p.agrees.unary hw 0
  | concat l r | compare k l r =>
      simp only [call, Option.bind_eq_bind, Option.bind_eq_some_iff, Option.pure_def,
        Option.some.injEq] at hc
      obtain ⟨x, hx, y, hy, rfl⟩ := hc
      obtain ⟨x', hx', p⟩ := getElem?_of_forall₂ h hx
      obtain ⟨y', hy', q⟩ := getElem?_of_forall₂ h hy
      simp only [call, hx', hy', Option.bind_eq_bind, Option.bind_some, Option.pure_def,
        Option.some.injEq, exists_eq_left']
      refine ⟨⟨p.covered, q.covered⟩, hw, ⟨p.covered', q.covered'⟩, ?_⟩
      first
        | exact p.agrees.concat q.agrees hw 0
        | exact p.agrees.compare q.agrees hw 0
  | binary k l r =>
      simp only [call, Option.bind_eq_bind, Option.bind_eq_some_iff, Option.pure_def,
        Option.some.injEq] at hc
      obtain ⟨x, hx, y, hy, rfl⟩ := hc
      obtain ⟨x', hx', p⟩ := getElem?_of_forall₂ h hx
      obtain ⟨y', hy', q⟩ := getElem?_of_forall₂ h hy
      simp only [call, hx', hy', Option.bind_eq_bind, Option.bind_some, Option.pure_def,
        Option.some.injEq, exists_eq_left']
      have hk : ¬ k.isDivision = true := by simpa [isCovered] using hs
      exact ⟨⟨hk, p.covered, q.covered⟩, hw, ⟨hk, p.covered', q.covered'⟩,
        p.agrees.binary q.agrees hw 0⟩
  | ite c t f =>
      simp only [call, Option.bind_eq_bind, Option.bind_eq_some_iff, Option.pure_def,
        Option.some.injEq] at hc
      obtain ⟨x, hx, y, hy, z, hz, rfl⟩ := hc
      obtain ⟨x', hx', p⟩ := getElem?_of_forall₂ h hx
      obtain ⟨y', hy', q⟩ := getElem?_of_forall₂ h hy
      obtain ⟨z', hz', r⟩ := getElem?_of_forall₂ h hz
      simp only [call, hx', hy', hz', Option.bind_eq_bind, Option.bind_some, Option.pure_def,
        Option.some.injEq, exists_eq_left']
      exact ⟨⟨p.covered, q.covered, r.covered⟩, hw, ⟨p.covered', q.covered', r.covered'⟩,
        p.agrees.ite q.agrees r.agrees hw 0⟩

/-- One call on `BaseExprBuilder` gives the plain node. -/
theorem base_create {c : Call} (hcov : c.plain.Covered σ) (hw : c.plain.WellSorted) {w w' : World}
    {e : Expr} (hr : Runs (body σ) (BaseExprBuilder.chain.create c) w e w') :
    e.Covered σ ∧ Agrees (· = σ.input) e c.plain := by
  have ht : c.traps = false := (foldsExactly_of_covers (m := ⟨[], c⟩) hcov (· = σ.input)).1
  have hbase : RefinesOn σ anyCall (· = σ.input) false [.base] := (base_completes σ _ []).refines
  obtain ⟨x, w₁, hx, -, hm⟩ := hbase c hw ht w trivial fun _ _ => trivial
  obtain ⟨rfl, -⟩ := hr.unique hx
  exact ⟨(next_stays hcov).result hr, hm.agrees⟩

/-- **The simulation.** The build with pruning keeps step with the plain one. -/
theorem build_pruned {steps : List Step}
    (hs : ∀ s ∈ steps, s.isCovered σ.inputs.length = true)
    (hbuilt : List.Forall₂ (IsPruned σ) built' built) {w w₁ : World} {rs : List Expr}
    (hrun : Runs (body σ) (BaseExprBuilder.chain.build steps built) w rs w₁)
    (hsorted : Safe (body σ) (fun m => m.call.plain.WellSorted)
      (BaseExprBuilder.chain.build steps built) w) (w' : World) :
    ∃ rs' w₁', Runs (body σ) (PruneExprBuilder.chain.build steps built') w' rs' w₁' ∧
      List.Forall₂ (IsPruned σ) rs' rs := by
  induction steps generalizing built built' w w' with
  | nil =>
      obtain ⟨rfl, -⟩ := Runs.ret_iff.1 hrun
      exact ⟨built', w', .ret _ _, hbuilt⟩
  | cons s steps ih =>
      obtain ⟨hs, hrest⟩ := List.forall_mem_cons.1 hs
      simp only [ExprBuilder.build] at hrun hsorted
      cases hc : s.call built with
      | none =>
          rw [hc] at hrun
          obtain ⟨n, hn⟩ := hrun
          cases hn
      | some c =>
          rw [hc] at hrun hsorted
          obtain ⟨e, w₂, hcall, hcont⟩ := Runs.bind_iff.1 hrun
          have hw : c.plain.WellSorted := hsorted _ .here
          obtain ⟨c', hc', p⟩ := s.call_isPruned hs hbuilt hc hw
          obtain ⟨he, hea⟩ := base_create p.covered hw hcall
          obtain ⟨e', w₂', hcall', he', hea'⟩ :=
            prunedChain_create p.covered' p.agrees.wellSorted w'
          have hpruned : IsPruned σ e' e :=
            ⟨he, hea.wellSorted, he', (hea'.trans p.agrees).trans (hea.symm hw)⟩
          obtain ⟨rs', w₃, hrun', hrs⟩ :=
            ih hrest (List.rel_append hbuilt (.cons hpruned .nil)) hcont
            (fun m hm => hsorted m (.bind_right hcall hm)) w₂'
          refine ⟨rs', w₃, ?_, hrs⟩
          simp only [ExprBuilder.build, hc']
          exact Runs.bind_iff.2 ⟨e', w₂', hcall', hrun'⟩

/-- `e` evaluates to the literal of `v`, in every world. -/
def EvaluatesTo (σ : Session) (e : Expr) (v : Smt.Value) : Prop :=
  ∀ w, ∃ x w', Runs (body σ) (e.evaluate σ) w x w' ∧ IsLiteralOf x v

theorem Expr.Covered.evaluatesTo {e : Expr} (h : e.Covered σ) (hw : e.WellSorted) :
    EvaluatesTo σ e (e.denote σ.input) := by
  intro w
  have heval : Builds σ anyCall _ _ := h.evaluate_builds hw
  obtain ⟨x, w', hr, -, hx, ha⟩ := heval w trivial fun _ _ => trivial
  exact ⟨x, w', hr, isLiteralOf_denote hx ha⟩

/-- The same sort and width, and the same value on the input of the session. -/
structure SameConcretely (σ : Session) (e' e : Expr) : Prop where
  isBoolean : e'.isBoolean = e.isBoolean
  bits : e'.bits = e.bits
  value : ∃ v, EvaluatesTo σ e' v ∧ EvaluatesTo σ e v

theorem IsPruned.sameConcretely {e' e : Expr} (h : IsPruned σ e' e) : SameConcretely σ e' e := by
  have hden : e'.denote σ.input = e.denote σ.input := by
    rw [denote, denote, h.agrees.isBoolean, h.agrees.truth rfl, h.agrees.bv rfl, h.agrees.bits]
  refine ⟨h.agrees.isBoolean, h.agrees.bits, e.denote σ.input, ?_, ?_⟩
  · exact hden ▸ h.covered'.evaluatesTo h.agrees.wellSorted
  · exact h.covered.evaluatesTo h.wellSorted

/-- **Pruning keeps concrete values.** If the plain build of a program makes only
well-sorted calls, then with the same program the chain with pruning builds, whatever
it prunes and whatever was cached, expressions of the same sorts, widths and values
on the input. -/
theorem prune_keepsConcrete (σ : Session) {steps : List Step}
    (hs : ∀ s ∈ steps, s.isCovered σ.inputs.length = true) {w w₁ : World} {rs : List Expr}
    (hrun : Runs (body σ) (BaseExprBuilder.chain.build steps []) w rs w₁)
    (hsorted : Safe (body σ) (fun m => m.call.plain.WellSorted)
      (BaseExprBuilder.chain.build steps []) w) (w' : World) :
    ∃ rs' w₁', Runs (body σ) (PruneExprBuilder.chain.build steps []) w' rs' w₁' ∧
      List.Forall₂ (SameConcretely σ) rs' rs := by
  obtain ⟨rs', w₁', hr, hrs⟩ := build_pruned hs .nil hrun hsorted w'
  exact ⟨rs', w₁', hr, hrs.imp fun _ _ h => h.sameConcretely⟩

/-- Surroundings that find nothing interesting. -/
def dullSession : Session :=
  { quietSession with isInteresting := fun _ => false }

/-- `Read 0 + 3 < Read 1`: the sum is pruned to the constant 3. -/
theorem prune_keepsConcrete_sum : ∃ rs' w₁',
    Runs (body dullSession)
      (PruneExprBuilder.chain.build [.read 0, .constant 8 3, .binary .add 0 1, .read 1,
        .compare .ult 2 3] []) (freshWorld 0) rs' w₁' ∧
      List.Forall₂ (SameConcretely dullSession) rs'
        [.read 0, .constant 0 8 3, .binary 1 .add (.read 0) (.constant 0 8 3), .read 1,
          .compare 2 .ult (.binary 1 .add (.read 0) (.constant 0 8 3)) (.read 1)] :=
  prune_keepsConcrete dullSession (w := freshWorld 0) (by decide) ⟨4, rfl⟩
    (safe_of_trace (n := 4) (by decide +kernel)) (freshWorld 0)

end Programs

end Qsym
