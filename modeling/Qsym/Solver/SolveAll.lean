import Qsym.Builder.Condition
import Qsym.Range.RangeSet
import Qsym.Solver.Extremum

/-!
# Qsym.Solver.SolveAll

`Solver::solveAll`: **every value** of an expression but the one it has.

The constraints on the bytes of the expression are asserted together with the condition that
its value is another one. When they leave no other value, the condition is asserted alone.
Then every value found is blocked until nothing is left (`Search.Rounds` with `≠`).

The condition goes through `g_expr_builder`. The chain with pruning turns it into a literal
while nothing is interesting, and `add` passes over literals, so the search then starts
without it and finds the value that the expression has. That is the only case in which the
values are not the ones asked for (`solveAll_exact_iff`).
-/

namespace Qsym

open Procedure Smt Components

/-- `isRelational` -/
def Expr.isRelational : Expr → Bool
  | .compare .. | .binary _ .land _ _ | .binary _ .lor _ _ | .unary _ .lnot _ => true
  | _ => false

/-- `Expr::getRangeSet`: the ranges that are kept with the nodes. -/
abbrev RangeSets : Type :=
  (e : Expr) → (isUnsigned : Bool) → Option (RangeSet isUnsigned e.bits)

namespace DependencyForest

/-- The tree of one more byte. -/
def findNext (s : List Nat × DependencyForest Expr) (index : Nat) :
    List Nat × DependencyForest Expr :=
  let (t, F) := s.2.find index
  (if t ∈ s.1 then s.1 else s.1 ++ [t], F)

/-- The trees of the bytes, each of them once. A `std::set` of pointers has them by address,
the model in the order they are found. -/
def findAll (F : DependencyForest Expr) (indices : List Nat) :
    List Nat × DependencyForest Expr :=
  indices.foldl findNext ([], F)

end DependencyForest

namespace Solver

variable (b : ExprBuilder) (z : Z3) (ranges : RangeSets)

/-- `Expr::simplify` is left out: it only replaces the terms that Z3 keeps for the operands. -/
def addToSolver (s : Solver) (e : Expr) (taken : Bool) : Build Solver := do
  let e ← if taken then .ret e else b.createLNot e
  return s.add z e.toZ3Expr

/-- The test that a range of `getRangeConstraint` stands for. -/
def getBound (e : Expr) (isUnsigned : Bool) (i : Range (APSInt isUnsigned e.bits)) :
    Build Expr := do
  let lowerKind : CompareKind := if isUnsigned then .uge else .sge
  let upperKind : CompareKind := if isUnsigned then .ule else .sle
  if i.first = i.second then
    -- can simplify this case
    let imm ← b.create (.constant e.bits i.first.toBitVec)
    b.createEqual e imm
  else
    let lbImm ← b.create (.constant e.bits i.first.toBitVec)
    let ubImm ← b.create (.constant e.bits i.second.toBitVec)
    let lb ← b.create (.compare lowerKind e lbImm)
    let ub ← b.create (.compare upperKind e ubImm)
    b.createLAnd lb ub

/-- One more range. -/
def joinBound (e : Expr) (isUnsigned : Bool) (expr : Option Expr)
    (i : Range (APSInt isUnsigned e.bits)) : Build (Option Expr) := do
  let bound ← getBound b e isUnsigned i
  match expr with
  | none => return some bound
  | some expr => do
      let expr ← b.createLOr expr bound
      return some expr

def getRangeConstraint (e : Expr) (isUnsigned : Bool) : Build (Option Expr) :=
  match ranges e isUnsigned with
  | none => .ret none
  | some rs => rs.ranges.foldlM (joinBound b e isUnsigned) none

/-- One round of the loop over the two range sets. -/
def addRange (node : Expr) (s : Solver) (isUnsigned : Bool) : Build Solver := do
  let exprRange ← getRangeConstraint b ranges node isUnsigned
  match exprRange with
  | none => return s
  | some exprRange => addToSolver b z s exprRange true

/-- What `syncConstraints` does with a node. -/
def addNode (s : Solver) (node : Expr) : Build Solver :=
  if node.isRelational then addToSolver b z s node true
  else [false, true].foldlM (addRange b z ranges node) s

def syncConstraints (s : Solver) (e : Expr) : Build Solver :=
  let (forest, F) := s.dep_forest_.findAll (e.getDeps.sort (· ≤ ·))
  (forest.flatMap fun t => (F.tree t).nodes).foldlM (addNode b z ranges)
    { s with dep_forest_ := F }

/-- The loop of `solveAll`, for at most `fuel` checks. -/
def enumerate (s : Solver) (suffix : String) (z3_expr : Term) (fuel : Nat) : Build Solver :=
  let block value s := add s z (.distinct value z3_expr)
  match s.searchLoop z suffix block z3_expr fuel none with
  | some (_, s) => .ret s
  | none => .stop

/-- `solveAll`, up to the `addValue` at its end that records the value. -/
def solveAll (s : Solver) (e : Expr) (val : BitVec e.bits) (fuel : Nat) : Build Solver :=
  if s.last_interested_ then do
    let exprVal ← b.create (.constant e.bits val)
    let exprConcrete ← b.createEqual e exprVal
    let s ← syncConstraints b z ranges s.reset e
    let s ← addToSolver b z s exprConcrete false
    let (res, s) := s.check z
    match res with
    | .sat _ => enumerate z s "" e.toZ3Expr fuel
    | _ => do
        -- Optimistic solving
        let s ← addToSolver b z s.reset exprConcrete false
        enumerate z s "optimistic" e.toZ3Expr fuel
  else .ret s

/-! ### What is asserted -/

/-- The node holds under an input: its truth, or its range sets. -/
def NodeHolds (node : Expr) (ρ : Input) : Prop :=
  if node.isRelational then node.truth ρ = true
  else ∀ u rs, ranges node u = some rs → rs.Mem (node.bv ρ node.bits)

/-- On the inputs of `E`, the assertions of `s` say `P`. Nothing but assertions was added
since `s₀`. -/
structure Asserts (E : Input → Prop) (s₀ : Solver) (P : Input → Prop) (s : Solver) : Prop where
  puts : Puts s₀ [] s
  overInput : s.OverInput
  holds : ∀ ρ, E ρ → (Holds ρ s.solver_.assertions ↔ P ρ)

/-- A condition over the first `size` bytes. -/
structure Tested (E : Input → Prop) (size : Nat) (p : Input → Bool) (x : Expr) : Prop where
  inside : x.Over (· < size) True
  decides : Decides E p x

variable {b : ExprBuilder} {z : Z3} {ranges : RangeSets} {σ : Session} {ok : MethodCall → Prop}
  {E : Input → Prop} {literal : Bool} {s s₀ : Solver} {P Q : Input → Prop} {p q : Input → Bool}
  {x e node : Expr} {size n : Nat}

theorem Asserts.congr (h : Asserts E s₀ P s) (hP : ∀ ρ, E ρ → (P ρ ↔ Q ρ)) : Asserts E s₀ Q s :=
  ⟨h.puts, h.overInput, fun ρ hρ => (h.holds ρ hρ).trans (hP ρ hρ)⟩

theorem overBytes_toZ3Expr (h : x.Over (· < size) True) : OverBytes size x.toZ3Expr := by
  intro y hy
  obtain ⟨hwidth, hmem⟩ := Expr.toZ3Expr_symbols hy
  exact ⟨hwidth, Expr.over_iff_getDeps.1 h _ hmem⟩

/-- Adding a condition. A literal is passed over, so it has to be true. -/
theorem Asserts.add (hz : z.Correct s₀.inputs_.length) (h : Asserts E s₀ P s)
    (hx : Tested E s₀.inputs_.length p x)
    (hliteral : x.isLiteral = true → ∀ ρ, E ρ → p ρ = true) :
    Asserts E s₀ (fun ρ => P ρ ∧ p ρ = true) (s.add z x.toZ3Expr) := by
  obtain ⟨hover, hbool, htruth⟩ := hx
  rw [Solver.add, Expr.isConst_toZ3Expr hbool.isBoolean]
  split
  next hl => exact h.congr fun ρ hρ => (and_iff_left (hliteral hl ρ hρ)).symm
  next =>
      have hinputs := h.puts.inputs
      refine ⟨h.puts.trans ⟨rfl, rfl, rfl, rfl, rfl, (List.append_nil _).symm⟩, ?_, fun ρ hρ => ?_⟩
      · intro t ht
        rcases List.mem_append.1 ht with ht | ht
        · exact h.overInput t ht
        · rw [List.mem_singleton.1 ht]
          intro y hy
          show y.2 = 8 ∧ y.1 < s.inputs_.length
          rw [hinputs]
          exact overBytes_toZ3Expr hover y (hz.simplify_symbols _ hy)
      · show Holds ρ (s.solver_.assertions ++ [z.simplify x.toZ3Expr]) ↔ _
        rw [holds_append, h.holds ρ hρ, holds_singleton, hz.simplify_eval,
          Expr.toZ3Expr_eval hbool.wellSorted, hbool.denote, htruth ρ hρ]
        simp

/-- What is true on one input is no false literal. -/
theorem Tested.of_literal (h : Tested E size p x) (hl : x.isLiteral = true) {ρ₀ : Input}
    (hE : E ρ₀) (h₀ : p ρ₀ = true) : ∀ ρ, E ρ → p ρ = true := by
  obtain ⟨ref, v, rfl⟩ := CEB.bool_of_literal hl h.decides.isBool.isBoolean
  have hv : v = true := (Expr.truth_bool ref v).symm.trans ((h.decides.truth ρ₀ hE).trans h₀)
  intro ρ hρ
  rw [← h.decides.truth ρ hρ, Expr.truth_bool, hv]

/-! ### Ranges -/

section Ranges

variable {u : Bool}

theorem lowerKind_holds (hn : 0 < n) (v w : BitVec n) :
    (if u then CompareKind.uge else .sge).holds v w =
      decide ((⟨w⟩ : APSInt u n) ≤ ⟨v⟩) := by
  rw [Bool.eq_iff_iff, decide_eq_true_iff, APSInt.le_iff]
  cases u with
  | true =>
      show w.ule v = true ↔ _
      rw [Bits.rank_true, Bits.rank_true, BitVec.ule, decide_eq_true_iff]
  | false => exact (Bits.rank_false_le hn w v).symm

theorem upperKind_holds (hn : 0 < n) (v w : BitVec n) :
    (if u then CompareKind.ule else .sle).holds v w =
      decide ((⟨v⟩ : APSInt u n) ≤ ⟨w⟩) := by
  rw [Bool.eq_iff_iff, decide_eq_true_iff, APSInt.le_iff]
  cases u with
  | true =>
      show v.ule w = true ↔ _
      rw [Bits.rank_true, Bits.rank_true, BitVec.ule, decide_eq_true_iff]
  | false => exact (Bits.rank_false_le hn v w).symm

/-- A constant for a bound. -/
theorem boundary_builds (size : Nat) (ht : SoundStructurally σ ok E b) (hn : 0 < n) (v : BitVec n) :
    Builds σ ok (b.create (.constant n v))
      fun x => x.Over (· < size) True ∧ Denotes E n (fun _ => v) x :=
  (ht.constant v rfl hn).over (c := .constant n v) trivial

theorem getBound_builds (ht : SoundStructurally σ ok E b) (he : e.IsBV e.bits)
    (hover : e.Over (· < size) True) (i : Range (APSInt u e.bits)) :
    Builds σ ok (getBound b e u i)
      (Tested E size fun ρ => decide (i.includes ⟨e.bv ρ e.bits⟩)) := by
  have hden : Denotes E e.bits (fun ρ => e.bv ρ e.bits) e := ⟨he, fun _ _ => rfl⟩
  rw [getBound]
  split
  next heq =>
      refine Total.bind (boundary_builds size ht he.pos _) ?_
      rintro imm ⟨himm, hv⟩
      have hequal := (ht.compare .equal rfl hden hv).over (c := .compare .equal e imm) ⟨hover, himm⟩
      refine hequal.mono ?_
      rintro x ⟨hx, hd⟩
      refine ⟨hx, hd.congr fun ρ _ => ?_⟩
      rw [Bool.eq_iff_iff, decide_eq_true_iff]
      show (e.bv ρ e.bits == i.first.toBitVec) = true ↔ _
      rw [beq_iff_eq, Range.includes, ← heq, ← le_antisymm_iff, eq_comm]
      exact ⟨fun h => h ▸ rfl, fun h => congrArg APSInt.toBitVec h⟩
  next =>
      refine Total.bind (boundary_builds size ht he.pos _) ?_
      rintro lb ⟨hlb, hlv⟩
      refine Total.bind (boundary_builds size ht he.pos _) ?_
      rintro ub ⟨hub, huv⟩
      refine Total.bind ((ht.compare (if u then .uge else .sge) rfl hden hlv).over
        (c := .compare _ e lb) ⟨hover, hlb⟩) ?_
      rintro l ⟨hl, hld⟩
      refine Total.bind ((ht.compare (if u then .ule else .sle) rfl hden huv).over
        (c := .compare _ e ub) ⟨hover, hub⟩) ?_
      rintro r ⟨hr, hrd⟩
      refine ((ht.land rfl hld hrd).over (c := .binary .land l r) ⟨nofun, hl, hr⟩).mono ?_
      rintro x ⟨hx, hd⟩
      refine ⟨hx, hd.congr fun ρ _ => ?_⟩
      rw [lowerKind_holds he.pos, upperKind_holds he.pos, ← Bool.decide_and]
      rfl

/-- The test that the ranges passed so far stand for. -/
def Joined (E : Input → Prop) (size : Nat) (e : Expr) (u : Bool)
    (pre : List (Range (APSInt u e.bits))) (expr : Option Expr) : Prop :=
  match expr with
  | none => pre = []
  | some x => Tested E size (fun ρ => pre.any fun i => i.includes ⟨e.bv ρ e.bits⟩) x

theorem joinBound_builds (ht : SoundStructurally σ ok E b) (he : e.IsBV e.bits)
    (hover : e.Over (· < size) True) {pre : List (Range (APSInt u e.bits))} {expr : Option Expr}
    (i : Range (APSInt u e.bits)) (h : Joined E size e u pre expr) :
    Builds σ ok (joinBound b e u expr i) (Joined E size e u (pre ++ [i])) := by
  refine Total.bind (getBound_builds ht he hover i) fun bound hbound => ?_
  cases expr with
  | none =>
      obtain rfl : pre = [] := h
      refine Total.ret ⟨hbound.inside, hbound.decides.congr fun ρ _ => ?_⟩
      simp
  | some x =>
      have hlor := (ht.lor rfl h.decides hbound.decides).over (c := .binary .lor x bound)
        ⟨nofun, h.inside, hbound.inside⟩
      refine Total.bind hlor fun y hy => Total.ret ⟨hy.1, hy.2.congr fun ρ _ => ?_⟩
      simp

theorem getRangeConstraint_builds (ht : SoundStructurally σ ok E b) (he : e.IsBV e.bits)
    (hover : e.Over (· < size) True) {rs : RangeSet u e.bits} (hrs : ranges e u = some rs) :
    Builds σ ok (getRangeConstraint b ranges e u) (Joined E size e u rs.ranges) := by
  rw [getRangeConstraint, hrs]
  exact Total.foldlM (fun pre i expr _ h => joinBound_builds ht he hover i h) [] (rfl : [] = [])

theorem any_includes {rs : RangeSet u n} {v : BitVec n} :
    (rs.ranges.any fun i => i.includes ⟨v⟩) = true ↔ rs.Mem v := by
  simp [RangeSet.Mem, PrimRangeSet.Covers]

end Ranges

/-! ### Nodes -/

/-- What is known of a node of the forest: it is over the input, only bit vectors have range
sets, and the input of the session satisfies it. -/
structure IsNode (σ : Session) (ranges : RangeSets) (node : Expr) : Prop where
  wellSorted : node.WellSorted
  inside : ∀ i ∈ node.getDeps, i < σ.inputs.length
  isBV : ∀ u, ranges node u ≠ none → node.isBoolean = false
  holds : NodeHolds ranges node σ.input

theorem addToSolver_asserts (hz : z.Correct s₀.inputs_.length) (h : Asserts E s₀ P s)
    (hx : Tested E s₀.inputs_.length p x) {ρ₀ : Input} (hE : E ρ₀) (h₀ : p ρ₀ = true) :
    Builds σ ok (addToSolver b z s x true) (Asserts E s₀ (fun ρ => P ρ ∧ p ρ = true)) :=
  Total.ret (h.add hz hx fun hl => hx.of_literal hl hE h₀)

/-- One range set. -/
theorem addRange_asserts {u : Bool} (ht : SoundStructurally σ ok E b)
    (hz : z.Correct s₀.inputs_.length) (hinputs : s₀.inputs_ = σ.inputs) (hE : E σ.input)
    (hn : IsNode σ ranges node) (hrel : node.isRelational = false) (h : Asserts E s₀ P s) :
    Builds σ ok (addRange b z ranges node s u) (Asserts E s₀ fun ρ =>
      P ρ ∧ ∀ rs, ranges node u = some rs → rs.Mem (node.bv ρ node.bits)) := by
  have hholds := hn.holds
  rw [NodeHolds, if_neg (by simp [hrel])] at hholds
  rw [addRange]
  cases hrs : ranges node u with
  | none =>
      simp only [getRangeConstraint, hrs]
      exact Total.ret (h.congr fun ρ _ => by simp)
  | some rs =>
      have hbv : node.IsBV node.bits := ⟨hn.wellSorted, hn.isBV u (by simp [hrs]), rfl⟩
      have hover : node.Over (· < s₀.inputs_.length) True := by
        rw [hinputs]
        exact Expr.over_iff_getDeps.2 hn.inside
      refine Total.bind (getRangeConstraint_builds ht hbv hover hrs) fun exprRange hjoined => ?_
      have hmem := hholds u rs hrs
      have hcongr (ρ : Input) : (P ρ ∧ rs.Mem (node.bv ρ node.bits)) ↔
          P ρ ∧ ∀ rs', some rs = some rs' → rs'.Mem (node.bv ρ node.bits) := by
        simp
      cases exprRange with
      | none =>
          -- an empty range set does not hold
          obtain ⟨i, hi, -⟩ := hmem
          have hnil : rs.ranges = [] := hjoined
          rw [hnil] at hi
          cases hi
      | some x =>
          refine (addToSolver_asserts hz h hjoined hE (any_includes.2 hmem)).mono fun s' hs' => ?_
          refine hs'.congr fun ρ _ => ?_
          rw [any_includes]
          exact hcongr ρ

theorem addNode_asserts (ht : SoundStructurally σ ok E b) (hz : z.Correct s₀.inputs_.length)
    (hinputs : s₀.inputs_ = σ.inputs) (hE : E σ.input) (hn : IsNode σ ranges node)
    (h : Asserts E s₀ P s) :
    Builds σ ok (addNode b z ranges s node)
      (Asserts E s₀ fun ρ => P ρ ∧ NodeHolds ranges node ρ) := by
  rw [addNode]
  split
  next hrel =>
      have hbool : node.IsBool := by
        refine ⟨hn.wellSorted, ?_⟩
        cases node with
        | compare => rfl
        | binary _ k _ _ => cases k <;> first | rfl | cases hrel
        | unary _ k _ => cases k <;> first | rfl | cases hrel
        | _ => cases hrel
      have hholds := hn.holds
      rw [NodeHolds, if_pos hrel] at hholds
      have hover : node.Over (· < s₀.inputs_.length) True := by
        rw [hinputs]
        exact Expr.over_iff_getDeps.2 hn.inside
      have htested : Tested E s₀.inputs_.length (fun ρ => node.truth ρ) node :=
        ⟨hover, hbool, fun _ _ => rfl⟩
      refine (addToSolver_asserts hz h htested hE hholds).mono fun s' hs' => hs'.congr fun ρ _ => ?_
      rw [NodeHolds, if_pos hrel]
  next hrel =>
      have hrel' : node.isRelational = false := by simpa using hrel
      refine Total.bind (addRange_asserts (u := false) ht hz hinputs hE hn hrel' h) fun s₁ h₁ => ?_
      refine Total.bind (addRange_asserts (u := true) ht hz hinputs hE hn hrel' h₁) fun s₂ h₂ => ?_
      refine Total.ret (h₂.congr fun ρ _ => ?_)
      rw [NodeHolds, if_neg hrel, and_assoc]
      refine and_congr_right fun _ => ⟨fun hall u => ?_, fun hall => ⟨hall false, hall true⟩⟩
      cases u
      · exact hall.1
      · exact hall.2

/-! ### The constraints of the bytes -/

/-- The node shares an input byte with `e`, or is tied to it through other nodes. -/
def Shares (nodes : List Expr) (e node : Expr) : Prop :=
  ∃ i ∈ e.getDeps, ∃ j ∈ node.getDeps, Linked (nodes.map Expr.getDeps) i j

section FindAll

open DependencyForest

/-- The trees of the bytes in `pre` are in the list. -/
structure FoundAll (nodes : List Expr) (pre : List Nat) (s : List Nat × DependencyForest Expr) :
    Prop where
  sorted : Sorted Expr.getDeps s.2 nodes
  mem_iff : ∀ t, t ∈ s.1 ↔ ∃ i ∈ pre, s.2.owner i = some t

theorem FoundAll.findNext {nodes : List Expr} {pre : List Nat}
    {s : List Nat × DependencyForest Expr} (h : FoundAll nodes pre s) (index : Nat) :
    FoundAll nodes (pre ++ [index]) (findNext s index) := by
  have howner (i : Nat) : (DependencyForest.findNext s index).2.owner i =
      if i = index then some (s.2.find index).1 else s.2.owner i := owner_find
  have hmem (t : Nat) : t ∈ (DependencyForest.findNext s index).1 ↔
      t ∈ s.1 ∨ t = (s.2.find index).1 := by
    show t ∈ (if (s.2.find index).1 ∈ s.1 then s.1 else s.1 ++ [(s.2.find index).1]) ↔ _
    split
    next hin => exact ⟨.inl, fun h => h.elim id fun heq => heq ▸ hin⟩
    next => rw [List.mem_append, List.mem_singleton]
  refine ⟨h.sorted.find index, fun t => ?_⟩
  rw [hmem, h.mem_iff]
  constructor
  · rintro (⟨i, hi, ho⟩ | rfl)
    · refine ⟨i, List.mem_append_left _ hi, ?_⟩
      rw [howner]
      split
      next heq =>
          -- a byte that is looked up again keeps its tree
          rw [find_fst (heq ▸ ho)]
      next => exact ho
    · exact ⟨index, by simp, (howner index).trans (if_pos rfl)⟩
  · rintro ⟨i, hi, ho⟩
    rw [howner] at ho
    split at ho
    next => exact .inr (Option.some.inj ho).symm
    next hne =>
        rcases List.mem_append.1 hi with hi | hi
        · exact .inl ⟨i, hi, ho⟩
        · exact absurd (List.mem_singleton.1 hi) hne

/-- Looking up bytes finds their trees. -/
theorem findAll_spec {F : DependencyForest Expr} {nodes : List Expr}
    (h : Sorted Expr.getDeps F nodes) (indices : List Nat) :
    FoundAll nodes indices (F.findAll indices) := by
  have hfold : ∀ (rest pre : List Nat) (s : List Nat × DependencyForest Expr),
      FoundAll nodes pre s →
        FoundAll nodes (pre ++ rest) (rest.foldl DependencyForest.findNext s) := by
    intro rest
    induction rest with
    | nil =>
        intro pre s hs
        rwa [List.append_nil]
    | cons index rest ih =>
        intro pre s hs
        rw [List.append_cons]
        exact ih _ _ (hs.findNext index)
  exact hfold indices [] ([], F) ⟨h, by simp⟩

/-- The nodes of the trees are the ones that share bytes. -/
theorem mem_nodes_findAll {F : DependencyForest Expr} {nodes : List Expr}
    (h : Sorted Expr.getDeps F nodes) (e node : Expr) :
    let found := F.findAll (e.getDeps.sort (· ≤ ·))
    (node ∈ found.1.flatMap fun t => (found.2.tree t).nodes) ↔
      node ∈ nodes ∧ Shares nodes e node := by
  obtain ⟨hF, htrees⟩ := findAll_spec h (e.getDeps.sort (· ≤ ·))
  simp only [List.mem_flatMap]
  constructor
  · rintro ⟨t, ht, hnode⟩
    obtain ⟨i, hi, ho⟩ := (htrees t).1 ht
    obtain ⟨hmem, hmeets⟩ := List.mem_filter.1 ((hF.held ho).mem_iff.1 hnode)
    obtain ⟨j, hj, hjt⟩ := (meets_iff Expr.getDeps).1 hmeets
    exact ⟨hmem, i, mem_sort.1 hi, j, hj, ((hF.mem_deps_iff ho).1 hjt).2⟩
  · rintro ⟨hmem, i, hi, j, hj, hlinked⟩
    -- the byte of the node leads to the tree of the byte of the expression
    obtain ⟨t, hot, hjt⟩ := hF.placed hmem hj
    have hi' : ∃ n ∈ nodes, i ∈ n.getDeps := by
      obtain rfl | ⟨k, ⟨d, hd, hid, -⟩, -⟩ := Relation.ReflTransGen.cases_head hlinked
      · exact ⟨node, hmem, hj⟩
      · obtain ⟨n, hn, rfl⟩ := List.mem_map.1 hd
        exact ⟨n, hn, hid⟩
    have ho := ((hF.owner_eq_iff hi' ⟨node, hmem, hj⟩).2 hlinked).trans hot
    refine ⟨t, (htrees t).2 ⟨i, mem_sort.2 hi, ho⟩, ?_⟩
    exact (hF.held hot).mem_iff.2 (List.mem_filter.2
      ⟨hmem, (meets_iff Expr.getDeps).2 ⟨j, hj, hjt⟩⟩)

end FindAll

/-- An input satisfies the constraints that share bytes with `e`. -/
def Satisfies (ranges : RangeSets) (nodes : List Expr) (e : Expr) (ρ : Input) : Prop :=
  ∀ node ∈ nodes, Shares nodes e node → NodeHolds ranges node ρ

/-- What is on the solver after `syncConstraints` is what the constraints say. -/
theorem syncConstraints_asserts (ht : SoundStructurally σ ok E b)
    (hz : z.Correct s.inputs_.length) (hinputs : s.inputs_ = σ.inputs) (hE : E σ.input)
    {nodes : List Expr} (hF : DependencyForest.Sorted Expr.getDeps s.dep_forest_ nodes)
    (hnodes : ∀ node ∈ nodes, IsNode σ ranges node) (hempty : s.solver_.assertions = []) :
    Builds σ ok (syncConstraints b z ranges s e) (Asserts E
      { s with dep_forest_ := (s.dep_forest_.findAll (e.getDeps.sort (· ≤ ·))).2 }
      (Satisfies ranges nodes e)) := by
  have hmem := mem_nodes_findAll hF e
  rw [syncConstraints]
  generalize s.dep_forest_.findAll (e.getDeps.sort (· ≤ ·)) = found at hmem
  show Builds σ ok ((found.1.flatMap fun t => (found.2.tree t).nodes).foldlM (addNode b z ranges)
    { s with dep_forest_ := found.2 }) (Asserts E { s with dep_forest_ := found.2 } _)
  have hstart : Asserts E { s with dep_forest_ := found.2 }
      (fun ρ => ∀ node ∈ [], NodeHolds ranges node ρ)
      { s with dep_forest_ := found.2 } := by
    refine ⟨.refl _, fun t ht => ?_, fun ρ _ => ?_⟩
    · have ht : t ∈ s.solver_.assertions := ht
      rw [hempty] at ht
      cases ht
    · show Holds ρ s.solver_.assertions ↔ _
      simp [Holds, hempty]
  generalize hs₀ : { s with dep_forest_ := found.2 } = s₀ at hstart
  have hinputs₀ : s₀.inputs_ = s.inputs_ := hs₀ ▸ rfl
  refine (Total.foldlM (Q := fun pre => Asserts E s₀ fun ρ =>
    ∀ node ∈ pre, NodeHolds ranges node ρ) (fun pre node s₁ hnode h₁ => ?_) [] hstart).mono
    fun s' hs' => hs'.congr fun ρ _ => ?_
  · have hn := hnodes node ((hmem node).1 hnode).1
    have hadd := addNode_asserts ht (hinputs₀ ▸ hz) (hinputs₀.trans hinputs) hE hn h₁
    refine hadd.mono fun s₂ h₂ => h₂.congr fun ρ _ => ?_
    simp only [List.forall_mem_append, List.forall_mem_singleton]
  · rw [List.nil_append]
    exact ⟨fun h node hnode hshares => h node ((hmem node).2 ⟨hnode, hshares⟩),
      fun h node hnode => h node ((hmem node).1 hnode).1 ((hmem node).1 hnode).2⟩

/-! ### The loop -/

/-- The values that test cases give to an expression. -/
def values (e : Expr) (cases : List TestCase) : List (BitVec e.bits) :=
  cases.map fun case => e.bv (inputOf case.values) e.bits

/-- The test cases give `e` the values in `V`, each of them once. -/
structure Enumerates (e : Expr) (cases : List TestCase) (V : Set (BitVec e.bits)) : Prop where
  nodup : (values e cases).Nodup
  mem_iff : ∀ v, v ∈ values e cases ↔ v ∈ V

theorem eval_toZ3Expr (he : e.IsBV n) (ρ : Input) :
    e.toZ3Expr.eval (Expr.symbols ρ) = some (.bv n (e.bv ρ n)) := by
  rw [Expr.toZ3Expr_eval he.wellSorted, he.denote]

/-- Blocking a value with `!=`. -/
theorem blocks_distinct (hz : z.Correct size) (he : e.IsBV n) (hover : e.Over (· < size) True) :
    Blocks size e.toZ3Expr n (· ≠ ·) fun value s => s.add z (.distinct value e.toZ3Expr) := by
  intro v s
  refine ⟨z.simplify (.distinct (.bv n v) e.toZ3Expr), rfl, fun y hy => ?_, fun ρ => ?_⟩
  · have hy := hz.simplify_symbols _ hy
    exact overBytes_toZ3Expr hover y (by simpa [Term.symbols] using hy)
  · rw [hz.simplify_eval, numeral_eq (eval_toZ3Expr he ρ)]
    show _ ↔ (e.bv ρ n).toNat ≠ v.toNat
    rw [ne_comm, ne_eq, BitVec.toNat_inj]
    simp [Term.eval, eval_toZ3Expr he ρ]

/-- The loop ends with every value that the assertions admit. -/
theorem enumerate_spec (suffix : String) {fuel : Nat} (hz : z.Correct s.inputs_.length)
    (hev : z.Evaluates s.inputs_.length e.toZ3Expr e.bits) (he : e.IsBV e.bits)
    (hover : e.Over (· < s.inputs_.length) True) (hs : s.OverInput) (hfuel : 2 ^ e.bits < fuel) :
    ∃ cases s', s.enumerate z suffix e.toZ3Expr fuel = .ret s' ∧ Puts s cases s' ∧
      Enumerates e cases ((e.bv · e.bits) '' {ρ | Holds ρ s.solver_.assertions}) := by
  have hstart : Searched {ρ | Holds ρ s.solver_.assertions} e.toZ3Expr (· ≠ ·) s [] :=
    ⟨.nil, hs, fun ρ => by simp⟩
  obtain ⟨cases, s', hloop, hputs, hrounds, hex, -⟩ := searchLoop_spec suffix hz hev
    (fun ρ => ⟨_, eval_toZ3Expr he ρ⟩) (blocks_distinct hz he hover) (fun v h => h rfl) fuel s []
    rfl hstart (by simpa using hfuel)
  have hnumerals : numerals e.toZ3Expr cases = (values e cases).map BitVec.toNat := by
    simp only [numerals, values, List.map_map]
    exact List.map_congr_left fun case _ => numeral_eq (eval_toZ3Expr he _)
  rw [hnumerals, List.append_nil] at hrounds hex
  refine ⟨cases, s', ?_, hputs, ?_, fun v => ?_⟩
  · have hloop : s.searchLoop z suffix (fun value s => s.add z (.distinct value e.toZ3Expr))
        e.toZ3Expr fuel none = _ := hloop
    simp only [Solver.enumerate, hloop]
  · exact (List.nodup_reverse.1 (hrounds.nodup fun v h => h rfl)).of_map _
  · have hmem := hrounds.mem_iff hex (v := v.toNat)
    rw [List.mem_reverse, List.mem_map_of_injective fun _ _ => BitVec.eq_of_toNat_eq] at hmem
    rw [hmem]
    refine exists_congr fun ρ => and_congr_right fun _ => ?_
    rw [numeral_eq (eval_toZ3Expr he ρ), BitVec.toNat_inj]

/-! ### The search -/

/-- What `solveAll` is asked: the constraints recorded by `accesses` hold on the input of the
session, and `val` is the value that `e` has there. -/
structure Asked (σ : Session) (ranges : RangeSets) (accesses : List Access) (s : Solver)
    (e : Expr) (val : BitVec e.bits) : Prop where
  forest : Access.run accesses = .ok s.dep_forest_
  nodes : ∀ node ∈ Access.added accesses, IsNode σ ranges node
  inputs : s.inputs_ = σ.inputs
  interested : s.last_interested_ = true
  isBV : e.IsBV e.bits
  inside : ∀ i ∈ e.getDeps, i < σ.inputs.length
  symbolic : e.isConcrete = false
  value : e.bv σ.input e.bits = val

section Search

variable {accesses : List Access} {val : BitVec e.bits}

theorem Asked.sorted (h : Asked σ ranges accesses s e val) :
    DependencyForest.Sorted Expr.getDeps s.dep_forest_ (Access.added accesses) := by
  obtain ⟨herr, -⟩ | ⟨F, hF, hsorted⟩ := Access.run_sorted accesses
  · have := herr.symm.trans h.forest
    cases this
  · obtain rfl := Except.ok.inj (hF.symm.trans h.forest)
    exact hsorted

theorem Asked.over (h : Asked σ ranges accesses s e val) :
    e.Over (· < s.inputs_.length) True := by
  rw [h.inputs]
  exact Expr.over_iff_getDeps.2 h.inside

theorem Asked.satisfies (h : Asked σ ranges accesses s e val) :
    Satisfies ranges (Access.added accesses) e σ.input :=
  fun node hnode _ => (h.nodes node hnode).holds

theorem isConstant_of_not_isConcrete (h : e.isConcrete = false) : e.isConstant = false := by
  cases e with
  | constant => cases h
  | _ => rfl

/-- The condition that the value is another one, once it went through the builder. -/
def Other (literal : Bool) (e : Expr) (val : BitVec e.bits) (ρ : Input) : Prop :=
  literal = false → e.bv ρ e.bits ≠ val

/-- The negated test of the value. -/
theorem addToSolver_other (ht : SoundStructurally σ ok E b) (hz : z.Correct s₀.inputs_.length)
    (h : Asserts E s₀ P s)
    (hx : Tested E s₀.inputs_.length (fun ρ => e.bv ρ e.bits == val) x)
    (hnegates : Builds σ ok (b.createLNot x) fun y => y.isLiteral = literal) :
    Builds σ ok (addToSolver b z s x false)
      (Asserts E s₀ fun ρ => P ρ ∧ Other literal e val ρ) := by
  have hlnot := (ht.lnot rfl hx.decides).over (c := .unary .lnot x) hx.inside
  refine Total.bind (hlnot.and hnegates) ?_
  rintro y ⟨⟨hover, hdecides⟩, hliteral⟩
  refine Total.ret ?_
  cases literal with
  | false =>
      have hadd := h.add hz ⟨hover, hdecides⟩ fun hl => nomatch hl.symm.trans hliteral
      refine hadd.congr fun ρ _ => ?_
      simp [Other]
  | true =>
      -- a literal is passed over
      rw [Solver.add, Expr.isConst_toZ3Expr hdecides.isBool.isBoolean, if_pos hliteral]
      exact h.congr fun ρ _ => by simp [Other]

/-- The test of the value, with its negation. -/
theorem createEqual_tests (ht : Tests σ ok E b literal) (he : e.IsBV e.bits)
    (hover : e.Over (· < size) True) (hc : e.isConcrete = false) :
    Builds σ ok (b.create (.constant e.bits val)) fun imm =>
      Builds σ ok (b.createEqual e imm) fun x =>
        Tested E size (fun ρ => e.bv ρ e.bits == val) x ∧
          Builds σ ok (b.createLNot x) fun y => y.isLiteral = literal := by
  refine (ht.constant val he.pos).mono ?_
  rintro _ ⟨ref, rfl⟩
  have himm := Expr.isBV_constant he.pos ref val
  have hequal := (ht.sound.compare (v := fun _ => val) .equal rfl ⟨he, fun _ _ => rfl⟩
    ⟨himm, fun ρ _ => Expr.bv_constant ρ ref e.bits val⟩).over
    (c := .compare .equal e (.constant ref e.bits val)) ⟨hover, trivial⟩
  refine (hequal.and (ht.negates he himm (isConstant_of_not_isConcrete hc) rfl)).mono ?_
  rintro x ⟨⟨hx, hdecides⟩, hnegates⟩
  exact ⟨⟨hx, hdecides⟩, hnegates⟩

/-- The constraints leave a value that passes the condition. -/
def Leaves (ranges : RangeSets) (nodes : List Expr) (literal : Bool) (e : Expr)
    (val : BitVec e.bits) : Prop :=
  ∃ ρ, Satisfies ranges nodes e ρ ∧ Other literal e val ρ

/-- What the search starts from, on the inputs of `E`: the condition, and the constraints if
they leave a value. -/
def StartsFrom (E : Input → Prop) (ranges : RangeSets) (nodes : List Expr) (literal : Bool)
    (e : Expr) (val : BitVec e.bits) (S : Set Input) : Prop :=
  ∀ ρ, E ρ → (ρ ∈ S ↔ (Leaves ranges nodes literal e val → Satisfies ranges nodes e ρ) ∧
    Other literal e val ρ)

theorem Enumerates.congr {cases : List TestCase} {V W : Set (BitVec e.bits)}
    (h : Enumerates e cases V) (hVW : ∀ v, v ∈ V ↔ v ∈ W) : Enumerates e cases W :=
  ⟨h.nodup, fun v => (h.mem_iff v).trans (hVW v)⟩

/-- The outcome of `solveAll`: new test cases with the values of a search. -/
def Solved (E : Input → Prop) (ranges : RangeSets) (nodes : List Expr) (literal : Bool) (e : Expr)
    (val : BitVec e.bits) (s s' : Solver) : Prop :=
  ∃ cases S, s'.saved = s.saved ++ cases ∧ Enumerates e cases ((e.bv · e.bits) '' S) ∧
    StartsFrom E ranges nodes literal e val S

/-- A model of the assertions is an input. -/
theorem exists_holds_of_sat (hz : z.Correct s.inputs_.length) (hs : s.OverInput) {m : Z3Model}
    (hcheck : z.check s.solver_.checks s.solver_.assertions = .sat m) :
    ∃ ρ, Holds ρ s.solver_.assertions := by
  obtain ⟨hnodup, hlt, hholds⟩ := hz.sat hs hcheck
  have hmodel : (s.check z).2.solver_.model = some m := by
    simp [check, Z3Solver.check, hcheck]
  obtain ⟨values, -, hfits⟩ := getConcreteValues_of_model hmodel hnodup hlt
  exact ⟨_, hholds _ hfits⟩

/-- A solver that has been reset asserts nothing. -/
theorem Asserts.reset (s : Solver) : Asserts E s.reset (fun _ => True) s.reset where
  puts := .refl _
  overInput _ h := absurd h List.not_mem_nil
  holds _ _ := iff_true_intro fun _ h => absurd h List.not_mem_nil

/-- The check decides where the search starts. -/
theorem search_builds {nodes : List Expr} {fuel : Nat} (hz : z.Correct s₀.inputs_.length)
    (hev : z.Evaluates s₀.inputs_.length e.toZ3Expr e.bits) (he : e.IsBV e.bits)
    (hover : e.Over (· < s₀.inputs_.length) True) (hfuel : 2 ^ e.bits < fuel)
    (ht : SoundStructurally σ ok E b) (hE : E σ.input) (hall : literal = false → ∀ ρ, E ρ)
    (hsat : Satisfies ranges nodes e σ.input)
    (h : Asserts E s₀ (fun ρ => Satisfies ranges nodes e ρ ∧ Other literal e val ρ) s)
    (hx : Tested E s₀.inputs_.length (fun ρ => e.bv ρ e.bits == val) x)
    (hnegates : Builds σ ok (b.createLNot x) fun y => y.isLiteral = literal) :
    Builds σ ok
      (match s.check z with
        | (res, s) =>
          match res with
          | .sat _ => s.enumerate z "" e.toZ3Expr fuel
          | _ => do
              let s ← addToSolver b z s.reset x false
              s.enumerate z "optimistic" e.toZ3Expr fuel)
      (Solved E ranges nodes literal e val s₀) := by
  have hinputs := h.puts.inputs
  -- without the condition the input of the session is left
  have hleaves : literal = true → Leaves ranges nodes literal e val := fun hl =>
    ⟨σ.input, hsat, fun hf => by cases hl.symm.trans hf⟩
  cases hcheck : z.check s.solver_.checks s.solver_.assertions with
  | unknown => exact absurd hcheck (hz.decides (hinputs ▸ h.overInput))
  | sat m =>
      simp only [check, Z3Solver.check, hcheck]
      obtain ⟨cases, s', hrun, hputs, henum⟩ := enumerate_spec (s := (s.check z).2) ""
        (hinputs ▸ hz) (hinputs ▸ hev) he (hinputs ▸ hover) h.overInput hfuel
      simp only [check, Z3Solver.check, hcheck] at hrun
      rw [hrun]
      refine Total.ret ⟨cases, _, ?_, henum, fun ρ hρ => ?_⟩
      · exact hputs.saved.trans (by rw [show (s.check z).2.saved = s.saved from rfl, h.puts.saved,
          List.append_nil])
      · have hleaves : Leaves ranges nodes literal e val := by
          cases literal with
          | true => exact hleaves rfl
          | false =>
              obtain ⟨ρ', hρ'⟩ := exists_holds_of_sat (hinputs ▸ hz) h.overInput hcheck
              exact ⟨ρ', (h.holds ρ' (hall rfl ρ')).1 hρ'⟩
        exact (h.holds ρ hρ).trans (and_congr_left fun _ => (true_imp_iff.symm.trans
          (imp_congr_left (iff_true_intro hleaves).symm)))
  | unsat =>
      have hnone := hz.unsat (hinputs ▸ h.overInput) hcheck
      have hlit : literal = false := by
        by_contra hl
        exact hnone σ.input ((h.holds _ hE).2 ⟨hsat, fun hf => absurd hf hl⟩)
      have hnotLeaves : ¬ Leaves ranges nodes literal e val := by
        rintro ⟨ρ, hρ⟩
        exact hnone ρ ((h.holds ρ (hall hlit ρ)).2 hρ)
      simp only [check, Z3Solver.check, hcheck]
      have hreset : Asserts E (s.check z).2.reset (fun _ => True) (s.check z).2.reset :=
        .reset _
      have hz' : z.Correct (s.check z).2.reset.inputs_.length := hinputs ▸ hz
      have hother := addToSolver_other ht hz' hreset (hinputs.symm ▸ hx) hnegates
      refine Total.bind hother fun s₁ h₁ => ?_
      have hinputs₁ : s₁.inputs_ = s₀.inputs_ := h₁.puts.inputs.trans hinputs
      obtain ⟨cases, s', hrun, hputs, henum⟩ := enumerate_spec "optimistic" (hinputs₁ ▸ hz)
        (hinputs₁ ▸ hev) he (hinputs₁ ▸ hover) h₁.overInput hfuel
      rw [hrun]
      refine Total.ret ⟨cases, _, ?_, henum, fun ρ hρ => ?_⟩
      · rw [hputs.saved, h₁.puts.saved, List.append_nil]
        exact congrArg (· ++ cases) (h.puts.saved.trans (List.append_nil _))
      · exact (h₁.holds ρ hρ).trans (and_congr_left fun _ => iff_of_true trivial
          fun hl => absurd hl hnotLeaves)

theorem solveAll_builds {fuel : Nat} (ht : Tests σ ok E b literal) (hE : E σ.input)
    (hall : literal = false → ∀ ρ, E ρ) (hz : z.Correct s.inputs_.length)
    (hev : z.Evaluates s.inputs_.length e.toZ3Expr e.bits)
    (h : Asked σ ranges accesses s e val) (hfuel : 2 ^ e.bits < fuel) :
    Builds σ ok (s.solveAll b z ranges e val fuel)
      (Solved E ranges (Access.added accesses) literal e val s) := by
  rw [solveAll, if_pos h.interested]
  refine Total.bind (createEqual_tests ht h.isBV h.over h.symbolic) fun imm himm => ?_
  refine Total.bind himm ?_
  rintro x ⟨hx, hnegates⟩
  have hsync := syncConstraints_asserts (s := s.reset) (e := e) ht.sound hz h.inputs hE h.sorted
    h.nodes rfl
  refine Total.bind hsync fun s₁ h₁ => ?_
  generalize hs₀ : ({ s.reset with
    dep_forest_ := (s.reset.dep_forest_.findAll (e.getDeps.sort (· ≤ ·))).2 } : Solver) = s₀ at h₁
  have hinputs : s₀.inputs_ = s.inputs_ := hs₀ ▸ rfl
  have hsaved : s₀.saved = s.saved := hs₀ ▸ rfl
  rw [← hinputs] at hz hev hx
  have hover : e.Over (· < s₀.inputs_.length) True := hinputs ▸ h.over
  refine Total.bind (addToSolver_other ht.sound hz h₁ hx hnegates) fun s₂ h₂ => ?_
  refine (search_builds hz hev h.isBV hover hfuel ht.sound hE hall h.satisfies h₂ hx
    hnegates).mono ?_
  rintro s' ⟨cases, S, hcases, hsolved⟩
  exact ⟨cases, S, hsaved ▸ hcases, hsolved⟩

/-! ### What `solveAll` calls -/

section Stays

variable {reads : Nat → Prop}

open Build

theorem addToSolver_stays {taken : Bool} (hx : x.Over reads True) :
    (addToSolver b z s x taken).Stays reads True fun _ => True := by
  cases taken with
  | true => trivial
  | false => exact stays_create_bind.2 ⟨hx, fun _ _ => trivial⟩

theorem getRangeConstraint_stays {u : Bool} (he : e.Over reads True) :
    (getRangeConstraint b ranges e u).Stays reads True fun expr =>
      ∀ x, expr = some x → x.Over reads True := by
  have hbound (i : Range (APSInt u e.bits)) :
      (getBound b e u i).Stays reads True (Expr.Over reads True) := by
    rw [getBound]
    split
    next => exact stays_create_bind.2 ⟨trivial, fun imm himm => next_stays ⟨he, himm⟩⟩
    next =>
        refine stays_create_bind.2 ⟨trivial, fun lb hlb => stays_create_bind.2 ⟨trivial, ?_⟩⟩
        refine fun ub hub => stays_create_bind.2 ⟨⟨he, hlb⟩, fun l hl => ?_⟩
        exact stays_create_bind.2 ⟨⟨he, hub⟩, fun r hr => next_stays ⟨nofun, hl, hr⟩⟩
  rw [getRangeConstraint]
  split
  next => exact nofun
  next rs _ =>
      refine Program.Keeps.foldlM (fun expr i _ hexpr => ?_) nofun
      refine (hbound i).bind fun bound hbound => ?_
      cases expr with
      | none =>
          rintro _ ⟨⟩
          exact hbound
      | some y =>
          refine stays_create_bind.2 ⟨⟨nofun, hexpr y rfl, hbound⟩, fun r hr => ?_⟩
          rintro _ ⟨⟩
          exact hr

theorem addRange_stays {u : Bool} (hn : node.Over reads True) :
    (addRange b z ranges node s u).Stays reads True fun _ => True := by
  refine (getRangeConstraint_stays hn).bind fun expr hexpr => ?_
  cases expr with
  | none => trivial
  | some x => exact addToSolver_stays (hexpr x rfl)

theorem addNode_stays (hn : node.Over reads True) :
    (addNode b z ranges s node).Stays reads True fun _ => True := by
  rw [addNode]
  split
  next => exact addToSolver_stays hn
  next => exact Program.Keeps.foldlM (fun _ _ _ _ => addRange_stays hn) trivial

theorem enumerate_stays {suffix : String} {z3_expr : Term} {fuel : Nat} :
    (s.enumerate z suffix z3_expr fuel).Stays reads True fun _ => True := by
  rw [Solver.enumerate]
  split <;> trivial

/-- Only expressions over the input reach the builder. -/
theorem solveAll_stays {fuel : Nat} (h : Asked σ ranges accesses s e val) :
    (s.solveAll b z ranges e val fuel).Stays (· < σ.inputs.length) True fun _ => True := by
  have hover : e.Over (· < σ.inputs.length) True := Expr.over_iff_getDeps.2 h.inside
  have hsync : (syncConstraints b z ranges s.reset e).Stays (· < σ.inputs.length) True
      fun _ => True := by
    refine Program.Keeps.foldlM (fun s node hnode _ => addNode_stays ?_) trivial
    have hmem := ((mem_nodes_findAll h.sorted e node).1 hnode).1
    exact Expr.over_iff_getDeps.2 (h.nodes node hmem).inside
  rw [solveAll, if_pos h.interested]
  refine stays_create_bind.2 ⟨trivial, fun imm himm => stays_create_bind.2 ⟨⟨hover, himm⟩, ?_⟩⟩
  refine fun x hx => hsync.bind fun s₁ _ => (addToSolver_stays hx).bind fun s₂ _ => ?_
  rcases s₂.check z with ⟨res, s₃⟩
  cases res with
  | sat => exact enumerate_stays
  | unsat | unknown => exact (addToSolver_stays hx).bind fun s₄ _ => enumerate_stays

end Stays

/-- The values other than `val` that are feasible under the constraints that share bytes with
`e`, if these admit one, and under none of them otherwise. -/
def feasible (ranges : RangeSets) (nodes : List Expr) (e : Expr) (val : BitVec e.bits) :
    Set (BitVec e.bits) :=
  {v | v ≠ val ∧ ∃ ρ, e.bv ρ e.bits = v ∧
    ((∃ ρ', Satisfies ranges nodes e ρ' ∧ e.bv ρ' e.bits ≠ val) → Satisfies ranges nodes e ρ)}

theorem image_eq_feasible {nodes : List Expr} {S : Set Input}
    (h : StartsFrom (fun _ => True) ranges nodes false e val S) (v : BitVec e.bits) :
    v ∈ (e.bv · e.bits) '' S ↔ v ∈ feasible ranges nodes e val := by
  have hother (ρ : Input) : Other false e val ρ ↔ e.bv ρ e.bits ≠ val := by simp [Other]
  have hleaves : Leaves ranges nodes false e val ↔
      ∃ ρ, Satisfies ranges nodes e ρ ∧ e.bv ρ e.bits ≠ val :=
    exists_congr fun ρ => and_congr_right fun _ => hother ρ
  constructor
  · rintro ⟨ρ, hρ, rfl⟩
    obtain ⟨hstart, hne⟩ := (h ρ trivial).1 hρ
    exact ⟨(hother ρ).1 hne, ρ, rfl, fun hex => hstart (hleaves.2 hex)⟩
  · rintro ⟨hne, ρ, rfl, hstart⟩
    exact ⟨ρ, (h ρ trivial).2 ⟨fun hl => hstart (hleaves.1 hl), (hother ρ).2 hne⟩, rfl⟩

/-- A run of `solveAll` whose new test cases give `e` the feasible values, once each. -/
def SolvesAll (σ : Session) (b : ExprBuilder) (z : Z3) (ranges : RangeSets) (nodes : List Expr)
    (s : Solver) (e : Expr) (val : BitVec e.bits) (fuel : Nat) (w : World) : Prop :=
  ∃ cases s' w', Runs (body σ) (s.solveAll b z ranges e val fuel) w s' w' ∧
    s'.saved = s.saved ++ cases ∧ Enumerates e cases (feasible ranges nodes e val)

/-- A builder that prunes nothing lets the search find what it is asked for. -/
theorem solvesAll_of_tests {fuel : Nat} (ht : Tests σ anyCall (fun _ => True) b false)
    (hz : z.Correct s.inputs_.length) (hev : z.Evaluates s.inputs_.length e.toZ3Expr e.bits)
    (h : Asked σ ranges accesses s e val) (hfuel : 2 ^ e.bits < fuel) (w : World) :
    SolvesAll σ b z ranges (Access.added accesses) s e val fuel w := by
  have hbuilds := solveAll_builds ht trivial (fun _ _ => trivial) hz hev h hfuel
  obtain ⟨s', w', hrun, -, cases, S, hsaved, henum, hstart⟩ := hbuilds w trivial fun _ _ => trivial
  exact ⟨cases, s', w', hrun, hsaved, henum.congr (image_eq_feasible hstart)⟩

/-- While nothing is interesting, the search with pruning finds the value that is excluded. -/
theorem not_solvesAll_of_dull {fuel : Nat} (hi : ∀ tick, σ.isInteresting tick = false)
    (hz : z.Correct s.inputs_.length) (hev : z.Evaluates s.inputs_.length e.toZ3Expr e.bits)
    (h : Asked σ ranges accesses s e val) (hfuel : 2 ^ e.bits < fuel) (w : World) :
    ¬ SolvesAll σ PruneExprBuilder.chain z ranges (Access.added accesses) s e val fuel w := by
  rintro ⟨cases, s', w', hrun, hsaved, henum⟩
  have hbuilds := solveAll_builds (prunedChain_tests_of_dull hi) rfl nofun hz hev h hfuel
  obtain ⟨s₁, w₁, hrun₁, -, cases₁, S, hsaved₁, henum₁, hstart⟩ :=
    hbuilds w trivial ((solveAll_stays h).evaluates hrun)
  obtain ⟨rfl, -⟩ := hrun.unique hrun₁
  obtain rfl := List.append_cancel_left (hsaved.symm.trans hsaved₁)
  -- the input of the session is what the search starts from
  have hmem : σ.input ∈ S := (hstart σ.input rfl).2 ⟨fun _ => h.satisfies, nofun⟩
  have hval := (henum.mem_iff val).1 ((henum₁.mem_iff val).2 ⟨σ.input, hmem, h.value⟩)
  exact hval.1 rfl

/-- **Solving for every value.** With a solver that decides and evaluates, and enough checks,
`solveAll` ends, and its test cases give `e` the feasible values other than the one it has,
once each, exactly when the builder prunes nothing: with the symbolic chain, or when the
current point is interesting. -/
theorem solveAll_exact_iff {interesting : Bool} {fuel : Nat}
    (hb : b = SymbolicExprBuilder.chain ∨ b = PruneExprBuilder.chain)
    (hi : ∀ tick, σ.isInteresting tick = interesting)
    (hz : z.Correct s.inputs_.length) (hev : z.Evaluates s.inputs_.length e.toZ3Expr e.bits)
    (h : Asked σ ranges accesses s e val) (hfuel : 2 ^ e.bits < fuel) (w : World) :
    SolvesAll σ b z ranges (Access.added accesses) s e val fuel w ↔
      b = SymbolicExprBuilder.chain ∨ interesting = true := by
  constructor
  · intro hsolves
    by_contra hpruned
    obtain ⟨hb', hi'⟩ := not_or.1 hpruned
    obtain rfl := hb.resolve_left hb'
    exact not_solvesAll_of_dull (fun tick => by simp [hi, hi']) hz hev h hfuel w hsolves
  · intro hsymbolic
    refine solvesAll_of_tests ?_ hz hev h hfuel w
    rcases hsymbolic with rfl | rfl
    · exact chain_tests σ _
    · rcases hb with rfl | rfl
      · exact chain_tests σ _
      · exact prunedChain_tests_of_interesting hi _

/-- A solver over two input bytes, with a record of constraints. -/
def overTwoBytes (dep_forest_ : DependencyForest Expr) : Solver where
  inputs_ := [0, 0]
  out_dir_ := "out"
  solver_ := { assertions := [], scopes := [], checks := 0, model := none }
  num_generated_ := 0
  last_interested_ := true
  dep_forest_ := dep_forest_
  saved := []

theorem isBV_read (i : Nat) : (Expr.read i).IsBV 8 :=
  ⟨trivial, rfl, rfl⟩

theorem read_evaluates : (Z3.bruteForce 2).Evaluates 2 (Expr.read 1).toZ3Expr 8 :=
  Z3.bruteForce_evaluates (by decide) fun ρ => ⟨_, eval_toZ3Expr (isBV_read 1) ρ⟩

/-- The second of two zero bytes, which is not less than the first. -/
theorem solveAll_exact_iff_byte : ∃ F,
    Access.run [.add (.compare 0 .ule (.read 0) (.read 1))] = .ok F ∧
      SolvesAll quietSession PruneExprBuilder.chain (Z3.bruteForce 2) (fun _ _ => none)
        (Access.added [.add (.compare 0 .ule (.read 0) (.read 1))]) (overTwoBytes F) (.read 1) 0
        257 (freshWorld 1) := by
  obtain ⟨-, ref, hmem⟩ | ⟨F, hF, -⟩ :=
    Access.run_sorted [.add (.compare 0 .ule (.read 0) (.read 1))]
  · simp at hmem
  have hasked : Asked quietSession (fun _ _ => none)
      [.add (.compare 0 .ule (.read 0) (.read 1))] (overTwoBytes F) (.read 1) 0 := by
    refine ⟨hF, fun node hnode => ?_, rfl, rfl, isBV_read 1, by decide, rfl, by decide⟩
    obtain rfl : node = .compare 0 .ule (.read 0) (.read 1) := by
      simpa [Access.added, Expr.isConcrete] using hnode
    have htruth : (Expr.compare 0 .ule (.read 0) (.read 1)).truth quietSession.input = true := by
      decide
    exact ⟨by decide, by decide, fun u hu => absurd rfl hu, htruth⟩
  exact ⟨F, hF, (solveAll_exact_iff (.inr rfl) (fun _ => rfl) (Z3.bruteForce_correct 2)
    read_evaluates hasked (by decide : 2 ^ 8 < 257) (freshWorld 1)).2 (.inr rfl)⟩

/-- The same byte without a constraint, while nothing is interesting. -/
theorem solveAll_not_exact :
    Asked dullSession (fun _ _ => none) [] (overTwoBytes .empty) (.read 1) 0 ∧
      (Z3.bruteForce 2).Correct 2 ∧ (Z3.bruteForce 2).Evaluates 2 (Expr.read 1).toZ3Expr 8 ∧
      ¬ SolvesAll dullSession PruneExprBuilder.chain (Z3.bruteForce 2) (fun _ _ => none) []
        (overTwoBytes .empty) (.read 1) 0 257 (freshWorld 0) := by
  have hasked : Asked dullSession (fun _ _ => none) [] (overTwoBytes .empty) (.read 1) 0 :=
    ⟨rfl, nofun, rfl, rfl, isBV_read 1, by decide, rfl, by decide⟩
  exact ⟨hasked, Z3.bruteForce_correct 2, read_evaluates,
    not_solvesAll_of_dull (fun _ => rfl) (Z3.bruteForce_correct 2) read_evaluates hasked
      (by decide : 2 ^ 8 < 257) (freshWorld 0)⟩

end Search

end Solver

end Qsym
