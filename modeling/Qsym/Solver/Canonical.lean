import Qsym.Flags.Condition
import Qsym.Solver.SolveAll

/-!
# Qsym.Solver.Canonical

Comparisons with a constant, as **ranges of a canonical expression**.

`C + X` and `C - X` are compared through `X` and `-X`, and the constant `C` goes into the range
(`getCanonicalExpr`). A range set that is intersected with a comparison keeps exactly the values
that pass it (`RangeSet.mem_constrain`), as long as some value does: below the least number there
is nothing, and the bound would wrap around.
-/

namespace Qsym

open Procedure

/-! ### Range sets -/

/-- Which range set of an expression a comparison goes to. Equality goes to the signed one. -/
def CompareKind.isUnsigned : CompareKind → Bool
  | ult | ule | ugt | uge => true
  | _ => false

namespace RangeSet

variable {u : Bool} {n : Nat}

/-- `Expr::addConstraint`, on a range set: what is left of it where `adjustment + x` compares
with `rhs`. -/
def constrain (rs : RangeSet u n) (kind : CompareKind) (rhs adjustment : BitVec n) : RangeSet u n :=
  match kind with
  | .slt | .ult => rs.intersectLT rhs adjustment
  | .sle | .ule => rs.intersectLE rhs adjustment
  | .sgt | .ugt => rs.intersectGT rhs adjustment
  | .sge | .uge => rs.intersectGE rhs adjustment
  | .equal => rs.intersectEQ rhs adjustment
  | .distinct => rs.intersectNE rhs adjustment

theorem ne_least_of_rank_lt {x y : BitVec n} (h : Bits.rank u x < Bits.rank u y) :
    y ≠ Bits.least u n := by
  rintro rfl
  rw [Bits.rank_least] at h
  exact absurd h (Nat.not_lt_zero _)

theorem ne_greatest_of_rank_lt {x y : BitVec n} (h : Bits.rank u x < Bits.rank u y) :
    x ≠ Bits.greatest u n := by
  rintro rfl
  have hy := Bits.rank_lt u y
  rw [Bits.rank_greatest] at h
  omega

theorem rank_true_lt (x y : BitVec n) : Bits.rank true x < Bits.rank true y ↔ x.ult y = true := by
  rw [Bits.rank_true, Bits.rank_true, BitVec.ult, decide_eq_true_iff]

theorem rank_true_le (x y : BitVec n) : Bits.rank true x ≤ Bits.rank true y ↔ x.ule y = true := by
  rw [Bits.rank_true, Bits.rank_true, BitVec.ule, decide_eq_true_iff]

/-- **Intersecting with a comparison** keeps the values that pass it. -/
theorem mem_constrain {kind : CompareKind} {rs : RangeSet kind.isUnsigned n}
    {rhs adjustment v : BitVec n}
    (hn : 0 < n) (hsome : ∃ x, kind.holds x rhs = true) :
    (rs.constrain kind rhs adjustment).Mem v ↔
      rs.Mem v ∧ kind.holds (adjustment + v) rhs = true := by
  obtain ⟨x, hx⟩ := hsome
  cases kind with
  | equal => exact mem_intersectEQ.trans (and_congr_right fun _ => beq_iff_eq.symm)
  | distinct => exact (mem_intersectNE hn).trans (and_congr_right fun _ => bne_iff_ne.symm)
  | ult =>
      have hrhs := ne_least_of_rank_lt ((rank_true_lt x rhs).2 hx)
      exact (mem_intersectLT hrhs).trans (and_congr_right fun _ => rank_true_lt _ _)
  | slt =>
      have hrhs := ne_least_of_rank_lt ((Bits.rank_false_lt hn x rhs).2 hx)
      exact (mem_intersectLT hrhs).trans (and_congr_right fun _ => Bits.rank_false_lt hn _ _)
  | ugt =>
      have hrhs := ne_greatest_of_rank_lt ((rank_true_lt rhs x).2 hx)
      exact (mem_intersectGT hrhs).trans (and_congr_right fun _ => rank_true_lt _ _)
  | sgt =>
      have hrhs := ne_greatest_of_rank_lt ((Bits.rank_false_lt hn rhs x).2 hx)
      exact (mem_intersectGT hrhs).trans (and_congr_right fun _ => Bits.rank_false_lt hn _ _)
  | ule => exact mem_intersectLE.trans (and_congr_right fun _ => rank_true_le _ _)
  | sle => exact mem_intersectLE.trans (and_congr_right fun _ => Bits.rank_false_le hn _ _)
  | uge => exact mem_intersectGE.trans (and_congr_right fun _ => rank_true_le _ _)
  | sge => exact mem_intersectGE.trans (and_congr_right fun _ => Bits.rank_false_le hn _ _)

end RangeSet

namespace RangeSets

variable (ranges : RangeSets) (e : Expr) (kind : CompareKind) (rhs adjustment : BitVec e.bits)

/-- The range set that an expression starts with. -/
def getRangeSet (u : Bool) : RangeSet u e.bits :=
  (ranges e u).getD (.full u e.bits)

/-- `Expr::addConstraint` -/
def addConstraint : RangeSets :=
  Function.update ranges e (Function.update (ranges e) kind.isUnsigned
    (some ((ranges.getRangeSet e kind.isUnsigned).constrain kind rhs adjustment)))

/-- The values that the range sets of `e` leave. -/
def Admits (v : BitVec e.bits) : Prop :=
  ∀ u rs, ranges e u = some rs → rs.Mem v

variable {ranges e kind rhs adjustment}

theorem addConstraint_of_ne {x : Expr} (h : x ≠ e) :
    ranges.addConstraint e kind rhs adjustment x = ranges x :=
  Function.update_of_ne h _ _

theorem addConstraint_self : ranges.addConstraint e kind rhs adjustment e =
    Function.update (ranges e) kind.isUnsigned
      (some ((ranges.getRangeSet e kind.isUnsigned).constrain kind rhs adjustment)) :=
  Function.update_self ..

theorem mem_getRangeSet {u : Bool} {v : BitVec e.bits} :
    (ranges.getRangeSet e u).Mem v ↔ ∀ rs, ranges e u = some rs → rs.Mem v := by
  unfold getRangeSet
  cases ranges e u with
  | none => exact iff_of_true (RangeSet.mem_full v) nofun
  | some rs => simp

/-- **A comparison is added** to what the range sets of an expression say. -/
theorem admits_addConstraint {v : BitVec e.bits} (hn : 0 < e.bits)
    (hsome : ∃ x, kind.holds x rhs = true) :
    (ranges.addConstraint e kind rhs adjustment).Admits e v ↔
      ranges.Admits e v ∧ kind.holds (adjustment + v) rhs = true := by
  have hnew : ((ranges.getRangeSet e kind.isUnsigned).constrain kind rhs adjustment).Mem v ↔
      (∀ rs, ranges e kind.isUnsigned = some rs → rs.Mem v) ∧
        kind.holds (adjustment + v) rhs = true :=
    (RangeSet.mem_constrain hn hsome).trans (and_congr_left fun _ => mem_getRangeSet)
  unfold Admits
  rw [addConstraint_self]
  constructor
  · intro h
    obtain ⟨hself, hholds⟩ := hnew.1 (h _ _ (Function.update_self ..))
    refine ⟨fun u rs hrs => ?_, hholds⟩
    by_cases hu : u = kind.isUnsigned
    · subst hu
      exact hself rs hrs
    · exact h u rs ((Function.update_of_ne hu _ _).trans hrs)
  · rintro ⟨h, hholds⟩ u rs hrs
    by_cases hu : u = kind.isUnsigned
    · subst hu
      rw [Function.update_self] at hrs
      obtain rfl := Option.some.inj hrs
      exact hnew.2 ⟨h _, hholds⟩
    · rw [Function.update_of_ne hu] at hrs
      exact h u rs hrs

theorem addConstraint_ne_none {x : Expr} {u : Bool}
    (h : ranges.addConstraint e kind rhs adjustment x u ≠ none) : x = e ∨ ranges x u ≠ none := by
  by_cases hx : x = e
  · exact .inl hx
  · rw [addConstraint_of_ne hx] at h
    exact .inr h

end RangeSets

/-! ### Comparisons with a constant -/

namespace Expr

/-- `isConstSym` -/
def isConstSym : Expr → Bool
  | concat _ l r | binary _ _ l r | compare _ _ l r => l.isConstant != r.isConstant
  | _ => false

/-- `parseConstSym`: the kind with the constant on the right, the other side, and the constant.
Only comparisons have a kind that can be mirrored. -/
def parseConstSym : Expr → Option (CompareKind × Expr × Expr)
  | compare _ kind l r =>
      if l.isConstant = false ∧ r.isConstant = true then some (kind, l, r)
      else if r.isConstant = false ∧ l.isConstant = true then some (kind.swap, r, l)
      else none
  | _ => none

variable {e sym : Expr} {kind : CompareKind} {n : Nat} {c : BitVec n}

/-- `e` compares `sym` with the constant `c`. -/
structure Compares (e : Expr) (kind : CompareKind) (sym : Expr) (n : Nat) (c : BitVec n) :
    Prop where
  isBV : sym.IsBV n
  truth : ∀ ρ, e.truth ρ = kind.holds (sym.bv ρ n) c
  getDeps : sym.getDeps = e.getDeps

/-- What `isConstSym` finds is a comparison, and is taken apart. -/
theorem parseConstSym_eq (he : e.IsBool) (h : e.isConstSym = true) :
    ∃ kind sym ref n, ∃ c : BitVec n,
      e.parseConstSym = some (kind, sym, constant ref n c) ∧ Compares e kind sym n c := by
  obtain ⟨hw, hbool⟩ := he
  cases e with
  | compare ref kind l r =>
      obtain ⟨hwl, hwr, hbits, hboolean, -⟩ := hw
      have hne : l.isConstant ≠ r.isConstant := bne_iff_ne.1 h
      cases hl : l.isConstant with
      | false =>
          have hr : r.isConstant = true := by
            rwa [hl, ne_comm, ne_eq, Bool.not_eq_false] at hne
          obtain ⟨ref', n, c, rfl⟩ := isConstant_iff.1 hr
          refine ⟨kind, l, ref', n, c, by rw [parseConstSym, if_pos ⟨hl, hr⟩],
            ⟨hwl, hboolean, hbits⟩,
            fun ρ => ?_, (Finset.union_empty _).symm⟩
          rw [truth_compare (n := n) hbits, bv_constant]
      | true =>
          have hr : r.isConstant = false := by
            rwa [hl, ne_comm, ne_eq, Bool.not_eq_true] at hne
          obtain ⟨ref', n, c, rfl⟩ := isConstant_iff.1 hl
          have hparse : parseConstSym (compare ref kind (constant ref' n c) r) =
              some (kind.swap, r, constant ref' n c) := by
            have hnot : ¬ ((constant ref' n c).isConstant = false ∧ r.isConstant = true) := nofun
            rw [parseConstSym, if_neg hnot, if_pos ⟨hr, hl⟩]
          refine ⟨kind.swap, r, ref', n, c, hparse, ⟨hwr, hboolean.symm, hbits.symm⟩, fun ρ => ?_,
            (Finset.empty_union _).symm⟩
          rw [truth_compare (n := n) rfl, bv_constant, CommutativeExprBuilder.holds_swap]
  | binary ref k l r =>
      have hk : k.isLogical = true := hbool
      obtain ⟨hl, hr⟩ := (wellSorted_logical_iff hk).1 hw
      have hnot {x : Expr} (hx : x.IsBool) : x.isConstant = false := by
        cases x with
        | constant => cases hx.isBoolean
        | _ => rfl
      rw [isConstSym, hnot hl, hnot hr] at h
      cases h
  | concat => cases hbool
  | _ => cases h

end Expr

/-! ### Canonical expressions -/

/-- `getCanonicalExpr`: the expression, and what is added to it. -/
def getCanonicalExpr (b : ExprBuilder) (e : Expr) : Build (Expr × BitVec e.bits) :=
  match e with
  -- e == Const + Sym --> canonical == Sym
  | .binary _ .add (.constant _ _ c) sym => .ret (sym, c)
  -- C_0 - Sym
  | .binary _ .sub (.constant _ _ c) sym => do
      let x ← b.createNeg sym
      return (x, c)
  | _ => .ret (e, 0)

/-- `x` is the canonical expression of `e`: `e` is `x` with a constant added. -/
structure Canonical (E : Input → Prop) (e : Expr) (x : Expr × BitVec e.bits) : Prop where
  isBV : x.1.IsBV e.bits
  inside : ∀ i ∈ x.1.getDeps, i ∈ e.getDeps
  bv : ∀ ρ, E ρ → e.bv ρ e.bits = x.2 + x.1.bv ρ e.bits

theorem getCanonicalExpr_builds {σ : Session} {ok : MethodCall → Prop} {E : Input → Prop}
    {b : ExprBuilder} {e : Expr} (ht : SoundStructurally σ ok E b) (he : e.IsBV e.bits) :
    Builds σ ok (getCanonicalExpr b e) (Canonical E e) := by
  unfold getCanonicalExpr
  split
  next ref ref' n c sym =>
      have hsym : sym.IsBV n := he.operands.2
      refine .ret ⟨hsym, fun i hi => Finset.mem_union_right _ hi, fun ρ _ => ?_⟩
      show Expr.bv ρ n (.binary ref .add (.constant ref' n c) sym) = c + sym.bv ρ n
      rw [Expr.bv_binary (n := n) ρ ref .add rfl, Expr.bv_constant]
      rfl
  next ref ref' n c sym =>
      have hsym : sym.IsBV n := he.operands.2
      have hden : Denotes E n (fun ρ => sym.bv ρ n) sym := ⟨hsym, fun _ _ => rfl⟩
      have hover : sym.Over (· ∈ sym.getDeps) True := Expr.over_iff_getDeps.2 fun _ hi => hi
      have hneg := (ht.unary (k := .neg) rfl nofun hden).over (c := .unary .neg sym) hover
      refine Total.bind hneg fun x hx => .ret ⟨hx.2.isBV, fun i hi => ?_, fun ρ hρ => ?_⟩
      · exact Finset.mem_union_right _ (Expr.over_iff_getDeps.1 hx.1 i hi)
      · show Expr.bv ρ n (.binary ref .sub (.constant ref' n c) sym) = c + x.bv ρ n
        rw [Expr.bv_binary (n := n) ρ ref .sub rfl, Expr.bv_constant, hx.2.bv ρ hρ]
        exact BitVec.sub_eq_add_neg c _
  next =>
      exact .ret ⟨he, fun i hi => hi, fun ρ _ => (BitVec.zero_add _).symm⟩

/-! ### What the range sets of an expression say -/

/-- A comparison as it is kept: `adjustment` plus the expression compares with `rhs`. -/
structure Comparison (n : Nat) where
  kind : CompareKind
  rhs : BitVec n
  adjustment : BitVec n
  deriving DecidableEq

namespace Comparison

variable {e : Expr}

def holds {n : Nat} (c : Comparison n) (v : BitVec n) : Bool :=
  c.kind.holds (c.adjustment + v) c.rhs

/-- The range sets after comparisons on `e`. -/
def recorded (e : Expr) (comparisons : List (Comparison e.bits)) : RangeSets :=
  comparisons.foldl (fun ranges c => ranges.addConstraint e c.kind c.rhs c.adjustment) fun _ _ =>
    none

theorem admits_foldl {comparisons : List (Comparison e.bits)} {ranges : RangeSets}
    {v v₀ : BitVec e.bits}
    (hn : 0 < e.bits) (hsome : ∀ c ∈ comparisons, c.holds v₀ = true) :
    (comparisons.foldl (fun ranges c => ranges.addConstraint e c.kind c.rhs c.adjustment)
        ranges).Admits e v ↔
      ranges.Admits e v ∧ ∀ c ∈ comparisons, c.holds v = true := by
  induction comparisons generalizing ranges with
  | nil => simp
  | cons c comparisons ih =>
      obtain ⟨hc, hrest⟩ := List.forall_mem_cons.1 hsome
      rw [List.foldl_cons, ih hrest, RangeSets.admits_addConstraint hn ⟨_, hc⟩, and_assoc,
        List.forall_mem_cons]
      rfl

/-- **Comparisons are kept exactly**, as long as one value passes them all. -/
theorem admits_recorded {comparisons : List (Comparison e.bits)} {v v₀ : BitVec e.bits}
    (hn : 0 < e.bits) (hsome : ∀ c ∈ comparisons, c.holds v₀ = true) :
    (recorded e comparisons).Admits e v ↔ ∀ c ∈ comparisons, c.holds v = true := by
  rw [recorded, admits_foldl hn hsome]
  exact and_iff_right nofun

variable {σ : Session} {ok : MethodCall → Prop} {E : Input → Prop} {b : ExprBuilder}

/-- The test of one range set, if there is one. -/
theorem getRangeConstraint_mem {ranges : RangeSets} (ht : SoundStructurally σ ok E b)
    (he : e.IsBV e.bits) {v₀ : BitVec e.bits} (hsome : ranges.Admits e v₀) (u : Bool) :
    Builds σ ok (Solver.getRangeConstraint b ranges e u) fun expr => ∀ ρ, E ρ →
      ((∀ x, expr = some x → x.truth ρ = true) ↔
        ∀ rs, ranges e u = some rs → rs.Mem (e.bv ρ e.bits)) := by
  cases hrs : ranges e u with
  | none =>
      rw [Solver.getRangeConstraint, hrs]
      exact .ret fun _ _ => iff_of_true (by rintro _ ⟨⟩) (by rintro _ ⟨⟩)
  | some rs =>
      have hover : e.Over (· < e.getDeps.sup id + 1) True := Expr.over_iff_getDeps.2 fun i hi =>
        Nat.lt_succ_of_le (Finset.le_sup (f := id) hi)
      refine (Solver.getRangeConstraint_builds ht he hover hrs).mono ?_
      rintro (_ | x) hjoined ρ hρ
      · -- an empty range set leaves nothing
        obtain ⟨i, hi, -⟩ := hsome u rs hrs
        rw [show rs.ranges = [] from hjoined] at hi
        cases hi
      · have htested : Solver.Tested E _ _ x := hjoined
        have htruth := htested.decides.truth ρ hρ
        rw [Bool.eq_iff_iff, Solver.any_includes] at htruth
        simpa using htruth

/-- **Range subsumption is exact.** What the two range sets of an expression are turned back into,
after comparisons that some value passes, is true of just the inputs that pass all of them. -/
theorem getRangeConstraint_exact {comparisons : List (Comparison e.bits)} {v₀ : BitVec e.bits}
    (ht : SoundStructurally σ ok E b) (he : e.IsBV e.bits)
    (hsome : ∀ c ∈ comparisons, c.holds v₀ = true) :
    Builds σ ok (do
        let signed ← Solver.getRangeConstraint b (recorded e comparisons) e false
        let unsigned ← Solver.getRangeConstraint b (recorded e comparisons) e true
        return (signed, unsigned)) fun x => ∀ ρ, E ρ →
      ((∀ y, x.1 = some y → y.truth ρ = true) ∧ (∀ y, x.2 = some y → y.truth ρ = true) ↔
        ∀ c ∈ comparisons, c.holds (e.bv ρ e.bits) = true) := by
  have hadmits := (admits_recorded he.pos hsome).2 hsome
  refine Total.bind (getRangeConstraint_mem ht he hadmits false) fun signed hsigned => ?_
  refine Total.bind (getRangeConstraint_mem ht he hadmits true) fun unsigned hunsigned => ?_
  refine .ret fun ρ hρ => ?_
  rw [hsigned ρ hρ, hunsigned ρ hρ, ← admits_recorded he.pos hsome, RangeSets.Admits,
    Bool.forall_bool]

/-- A byte that is below 10 with 3 added, and above -5 as a signed number. -/
theorem getRangeConstraint_exact_byte : ∃ (x : Option Expr × Option Expr) (w' : World),
    Runs (body quietSession) (do
      let s := recorded (.read 0) [⟨.ult, 10, 3⟩, ⟨.sgt, -5, 0⟩]
      let signed ← Solver.getRangeConstraint SymbolicExprBuilder.chain s (.read 0) false
      let unsigned ← Solver.getRangeConstraint SymbolicExprBuilder.chain s (.read 0) true
      return (signed, unsigned)) (freshWorld 0) x w' ∧ ∀ ρ : Input,
    ((∀ y, x.1 = some y → y.truth ρ = true) ∧ (∀ y, x.2 = some y → y.truth ρ = true) ↔
      ∀ c ∈ [⟨.ult, 10, 3⟩, ⟨.sgt, -5, 0⟩], Comparison.holds c ((Expr.read 0).bv ρ 8) = true) := by
  obtain ⟨x, w', hrun, -, hx⟩ := getRangeConstraint_exact (σ := quietSession) (e := .read 0)
    (chain_tests quietSession fun _ => True).sound (Solver.isBV_read 0)
    (by decide : ∀ c ∈ [⟨.ult, 10, 3⟩, ⟨.sgt, -5, 0⟩], Comparison.holds c (2 : BitVec 8) = true)
    (freshWorld 0) trivial fun _ _ => trivial
  exact ⟨x, w', hrun, fun ρ => hx ρ trivial⟩

end Comparison

end Qsym
