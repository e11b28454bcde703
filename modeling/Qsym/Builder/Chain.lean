import Qsym.Builder.Lower
import Qsym.Builder.Common
import Qsym.Builder.Product

/-!
# Qsym.Builder.Chain

The layers put together. `SymbolicExprBuilder` is right for the calls that never
reach a division without a condition (`symbolic_structural`), for the other calls
as long as divisions fold exactly (`symbolic_meets`), and `CommutativeExprBuilder`
keeps what holds below it. The results for the whole chain follow by giving the
layers their `next`.
-/

namespace Qsym

open Procedure Qsym.Expr Bits

namespace SymbolicExprBuilder

variable {σ : Session} {stops : Prop} {ok : MethodCall → Prop} {E : Input → Prop}
variable {next : ExprBuilder} {l r e : Expr} {n : Nat}
variable (h : CompletesOn σ stops ok E true next)
variable (hexact : ∀ c, ok ⟨.symbolic :: next, c⟩ → FoldsPointwise E ⟨.symbolic :: next, c⟩)

/-! ### `createOr` -/

theorem meets_or (hl : l.IsBV n) (hr : r.IsBV n) {x : Expr} (hx : x.IsBV n)
    (hv : ∀ ρ, E ρ → x.value ρ = l.value ρ ||| r.value ρ) :
    (Call.binary .or l r).Meets E true x := by
  have hp : (Call.binary .or l r).plain.IsBV n := isBV_binary rfl hl hr 0
  refine Call.meets_of_agrees rfl rfl (.of_isBV hx hp fun ρ hρ => ?_) true
  exact (hv ρ hρ).trans (value_bitwise (k := .or) rfl hl hr ρ 0).symm

include h in
/-- The disjunction of two operands from the disjunctions of their parts. -/
theorem orParts_meets {m : Nat} {x y w v a b : Expr} (hx : x.IsBV m) (hy : y.IsBV n)
    (hw : w.IsBV m) (hv : v.IsBV n) (ha : (Call.binary .or x w).Meets E true a)
    (hb : (Call.binary .or y v).Meets E true b) (hl : l.IsBV (m + n)) (hr : r.IsBV (m + n))
    (hval : ∀ ρ, E ρ → (concat 0 x y).value ρ = l.value ρ ∧ (concat 0 w v).value ρ = r.value ρ) :
    Completes σ stops ok (ExprBuilder.createConcat (.symbolic :: next) a b)
      ((Call.binary .or l r).Meets E true) := by
  have habv := ha.agrees.isBV (isBV_binary (k := .or) rfl hx hw 0)
  have hbbv := hb.agrees.isBV (isBV_binary (k := .or) rfl hy hv 0)
  refine (concat_meets h habv hbbv).mono fun z hz => ?_
  have hzx := agrees_bitwise_concat rfl hx hy hw hv ha.agrees hb.agrees hz 0 0
  have hcl := isBV_concat hx hy 0
  have hcr := isBV_concat hw hv 0
  refine meets_or hl hr (hzx.isBV (isBV_binary rfl hcl hcr 0)) fun ρ hρ => ?_
  rw [hzx.value ρ hρ, value_bitwise (k := .or) rfl hcl hcr, (hval ρ hρ).1, (hval ρ hρ).2]
  rfl

include h hexact in
theorem extract_builds (he : e.IsBV n) {i b : Nat} (hb : 0 < b) (hi : i + b ≤ n) :
    Completes σ stops ok (ExprBuilder.createExtract (.symbolic :: next) e i b)
      ((Call.extract e i b).Meets E true) :=
  arith_meets h hexact _ rfl (isBV_extract he hb hi 0).wellSorted

include h hexact in
/-- Operands without a common bit. -/
theorem orExclusive_meets (hl : l.IsBV n) (hr : r.IsBV n) {p : Build Expr}
    (hp : simplifyExclusiveExpr (.symbolic :: next) l r = some p) :
    Completes σ stops ok p ((Call.binary .or l r).Meets E true) := by
  have hext : ∀ e i b, e = l ∨ e = r → 0 < b → i + b ≤ n →
      Completes σ stops ok (ExprBuilder.createExtract (.symbolic :: next) e i b)
        ((Call.extract e i b).Meets E true) := by
    intro e i b he hb hi
    have hbv : e.IsBV n := by rcases he with rfl | rfl <;> assumption
    exact extract_builds h hexact hbv hb hi
  refine (simplifyExclusiveExpr_builds hl hr hext (fun hl hr => concat_meets h hl hr)
    hp).mono ?_
  rintro x ⟨hx, hv, -, -⟩
  exact meets_or hl hr hx hv

include h hexact in
theorem or_meets (hl : l.IsBV n) (hr : r.IsBV n) :
    Completes σ stops ok (ExprBuilder.createOr (.symbolic :: next) l r)
      ((Call.binary .or l r).Meets E true) := by
  induction r generalizing l n with
  | concat ref' w v ihw ihv =>
      have hnext : Completes σ stops ok (next.createOr l (.concat ref' w v))
          ((Call.binary .or l (.concat ref' w v)).Meets E true) :=
        h.completes (isBV_binary (k := .or) rfl hl hr 0).wellSorted rfl
      obtain ⟨hw, hv, rfl⟩ := hr.parts
      refine completes_create fun _ => ?_
      show Completes σ stops _ (createOr (.symbolic :: next) next l (concat ref' w v)) _
      unfold createOr
      split
      next p hp => exact orExclusive_meets h hexact hl hr hp
      split
      next => exact hnext
      split
      -- `C_0 | C(x, y)`
      next =>
          have hi : v.bits + w.bits ≤ w.bits + v.bits := by omega
          have hi' : 0 + v.bits ≤ w.bits + v.bits := by omega
          refine Terminates.bind (extract_builds h hexact hl hw.pos hi) fun lx hlx => ?_
          rw [Call.meets_extract_iff hl hw.pos hi] at hlx
          obtain ⟨hlx, hvx, -, -⟩ := hlx
          refine Terminates.bind (ihw hlx hw) fun a ha => ?_
          refine Terminates.bind (extract_builds h hexact hl hv.pos hi') fun ly hly => ?_
          rw [Call.meets_extract_iff hl hv.pos hi'] at hly
          obtain ⟨hly, hvy, -, -⟩ := hly
          refine Terminates.bind (ihv hly hv) fun b hb => ?_
          refine orParts_meets h hlx hly hw hv ha hb hl hr fun ρ hρ => ⟨?_, rfl⟩
          rw [value, hvx ρ hρ, hvy ρ hρ, hly.bits]
          exact append_split (hl.value_lt ρ)
      unfold createOrNonConst
      split
      next heq =>
          subst heq
          refine Terminates.ret (meets_or hl hl hl fun ρ _ => (Nat.or_self _).symm)
      cases l with
      | concat ref x y =>
          simp only
          split
          next hxw =>
              obtain ⟨hx, hy, hn⟩ := hl.parts
              have hyv : y.bits = v.bits := by omega
              rw [hxw] at hx
              rw [hyv] at hy
              refine Terminates.bind (ihw hx hw) fun a ha =>
                Terminates.bind (ihv hy hv) fun b hb => ?_
              exact orParts_meets h hx hy hw hv ha hb hl hr fun ρ _ => ⟨rfl, rfl⟩
          next => exact hnext
      | _ => exact hnext
  | _ =>
      have hnext : Completes σ stops ok (next.createOr l _)
          ((Call.binary .or l _).Meets E true) :=
        h.completes (isBV_binary (k := .or) rfl hl hr 0).wellSorted rfl
      refine completes_create fun _ => ?_
      show Completes σ stops _ (createOr (.symbolic :: next) next l _) _
      unfold createOr
      split
      next p hp => exact orExclusive_meets h hexact hl hr hp
      split
      next => exact hnext
      split
      next => exact hnext
      unfold createOrNonConst
      split
      next heq =>
          subst heq
          exact Terminates.ret (meets_or hl hl hl fun ρ _ => (Nat.or_self _).symm)
      cases l <;> exact hnext

end SymbolicExprBuilder

/-! ### The layers of rewriting -/

/-- Calls whose rewriting never comes to a division. -/
def Call.isStructural : Call → Bool
  | .extract .. => false
  | .binary k _ _ =>
      match k with
      | .and | .xor | .shl | .lshr | .ashr | .lor | .land => true
      | _ => false
  | _ => true

/-- Signed quotients have conditions of their own. -/
def Call.isSDiv : Call → Bool
  | .binary .sdiv _ _ => true
  | _ => false

section Layers

variable {σ : Session} {stops : Prop} {ok : MethodCall → Prop} {E : Input → Prop}
variable {next : ExprBuilder}

open SymbolicExprBuilder in
theorem symbolic_structural (h : CompletesOn σ stops ok E true next) {c : Call}
    (hs : c.isStructural = true) (hc : c.plain.WellSorted) :
    Completes σ stops ok (ExprBuilder.create (.symbolic :: next) c) (c.Meets E true) := by
  cases c with
  | bool | constant | read | ext => exact completes_create fun _ => h _ hc rfl
  | extract => cases hs
  | concat l r =>
      obtain ⟨hl, hr, -⟩ := IsBV.parts (n := l.bits + r.bits) ⟨hc, rfl, rfl⟩
      exact concat_meets h hl hr
  | unary k e =>
      cases k with
      | lnot => exact lnot_meets h ⟨hc.1, hc.2⟩
      | _ => exact completes_create fun _ => h _ hc rfl
  | binary k l r =>
      cases k with
      | and =>
          obtain ⟨n, hl, hr⟩ := (wellSorted_binary_iff rfl).1 hc
          exact and_meets h hl hr
      | xor =>
          obtain ⟨n, hl, hr⟩ := (wellSorted_binary_iff rfl).1 hc
          exact xor_meets h hl hr
      | lor =>
          obtain ⟨hl, hr⟩ := (wellSorted_logical_iff rfl).1 hc
          exact lor_meets h hl hr
      | land =>
          obtain ⟨hl, hr⟩ := (wellSorted_logical_iff rfl).1 hc
          exact land_meets h hl hr
      | shl | lshr | ashr => exact completes_create fun _ => h _ hc rfl
      | _ => cases hs
  | compare k l r =>
      cases k with
      | equal => exact equal_meets h hc
      | distinct => exact distinct_meets h hc
      | _ => exact completes_create fun _ => h _ hc rfl
  | ite cond t f => exact ite_meets h hc

open SymbolicExprBuilder in
theorem symbolic_meets (h : CompletesOn σ stops ok E true next)
    (hexact : ∀ c, ok ⟨.symbolic :: next, c⟩ → FoldsPointwise E ⟨.symbolic :: next, c⟩)
    {c : Call} (hs : c.isSDiv = false)
    (hc : c.plain.WellSorted) :
    Completes σ stops ok (ExprBuilder.create (.symbolic :: next) c) (c.Meets E true) := by
  by_cases hstr : c.isStructural = true
  · exact symbolic_structural h hstr hc
  cases c with
  | extract e i b => exact arith_meets h hexact _ rfl hc
  | binary k l r =>
      cases k with
      | add | sub | mul | udiv | urem => exact arith_meets h hexact _ rfl hc
      | or =>
          obtain ⟨n, hl, hr⟩ := (wellSorted_binary_iff rfl).1 hc
          exact or_meets h hexact hl hr
      | srem => exact completes_create fun hok => h.completes hc (hexact _ hok).1
      | sdiv => cases hs
      | _ => exact absurd rfl hstr
  | _ => exact absurd rfl hstr

end Layers

/-! ### `CommutativeExprBuilder` -/

namespace CommutativeExprBuilder

variable {σ : Session} {stops : Prop} {ok : MethodCall → Prop} {E : Input → Prop}
variable {next : ExprBuilder}

/-- A class of calls that `CommutativeExprBuilder` stays in. -/
structure Closed (P : Call → Prop) : Prop where
  binary : ∀ {k l r}, P (.binary k l r) → P (.binary k r l)
  compare : ∀ {k l r}, P (.compare k l r) → P (.compare k.swap r l)
  sub : ∀ {l r}, P (.binary .sub l r) → P (.unary .neg r) ∧ ∀ c, P (.binary .add c l)

theorem apply_comm {k : BinaryKind} (hk : k.isCommutative = true) {n : Nat} (x y : BitVec n) :
    k.apply x y = k.apply y x := by
  cases k with
  | add => exact BitVec.add_comm x y
  | mul => exact BitVec.mul_comm x y
  | and | land => exact BitVec.and_comm x y
  | or | lor => exact BitVec.or_comm x y
  | xor => exact BitVec.xor_comm x y
  | _ => cases hk

theorem holds_swap (k : CompareKind) {n : Nat} (x y : BitVec n) :
    k.swap.holds y x = k.holds x y := by
  cases k with
  | equal => exact Bool.beq_comm
  | distinct => exact congrArg not Bool.beq_comm
  | _ => rfl

theorem agrees_swap {k : BinaryKind} (hk : k.isCommutative = true) {l r : Expr}
    (hc : (Call.binary k l r).plain.WellSorted) :
    Agrees E (Call.binary k r l).plain (Call.binary k l r).plain := by
  obtain ⟨hl, hr, hb, hbl, hbr⟩ := hc
  refine ⟨⟨hr, hl, hb.symm, hbr, hbl⟩, hb.symm, rfl, fun ρ _ => ?_⟩
  refine (value_binary ρ 0 k hb.symm).trans (Eq.trans ?_ (value_binary ρ 0 k rfl).symm)
  rw [apply_comm hk]

theorem agrees_mirror {k : CompareKind} {l r : Expr}
    (hc : (Call.compare k l r).plain.WellSorted) :
    Agrees E (Call.compare k.swap r l).plain (Call.compare k l r).plain := by
  obtain ⟨hl, hr, hb, hbb, hk⟩ := hc
  have hk' : k.swap.comparesBooleans = false → r.isBoolean = false := fun h =>
    hbb.symm.trans (hk (by cases k <;> first | rfl | cases h))
  refine ⟨⟨hr, hl, hb.symm, hbb.symm, hk'⟩, rfl, rfl, fun ρ _ => ?_⟩
  refine (value_compare ρ 0 _ hb.symm).trans (Eq.trans ?_ (value_compare ρ 0 k rfl).symm)
  rw [holds_swap]

variable {P : Call → Prop} (hP : Closed P)
  (h : ∀ c, P c → c.plain.WellSorted → Completes σ stops ok (next.create c) (c.Meets E true))

include h in
theorem next_agrees {c : Call} (hp : P c) (hc : c.plain.WellSorted) :
    Completes σ stops ok (next.create c) (fun e => Agrees E e c.plain) :=
  (h c hp hc).mono fun _ he => he.agrees

include hP h in
theorem binary_agrees {k : BinaryKind} (hk : k.isCommutative = true) {l r : Expr}
    (hp : P (.binary k l r)) (hc : (Call.binary k l r).plain.WellSorted) :
    Completes σ stops ok (ExprBuilder.create (.commutative :: next) (.binary k l r))
      (fun e => Agrees E e (Call.binary k l r).plain) := by
  have hbody : ∀ x y, Qsym.body σ ⟨.commutative :: next, .binary k x y⟩ =
      createCommutative (.commutative :: next) next k x y := by
    intro x y
    cases k <;> first | rfl | cases hk
  have hswap := agrees_swap (E := E) hk hc
  refine completes_create fun _ => ?_
  rw [hbody, createCommutative]
  split
  next hcr =>
      refine completes_create fun _ => ?_
      rw [hbody, createCommutative, if_neg (by simp [hcr.2])]
      exact (next_agrees h (hP.binary hp) hswap.wellSorted).mono fun e he => he.trans hswap
  next => exact next_agrees h hp hc

include hP h in
theorem compare_agrees {k : CompareKind} {l r : Expr} (hp : P (.compare k l r))
    (hc : (Call.compare k l r).plain.WellSorted) :
    Completes σ stops ok (ExprBuilder.create (.commutative :: next) (.compare k l r))
      (fun e => Agrees E e (Call.compare k l r).plain) := by
  have hswap := agrees_mirror (E := E) hc
  refine completes_create fun _ => ?_
  show Completes σ stops ok (createCompare (.commutative :: next) next k l r) _
  rw [createCompare]
  split
  next hcr =>
      refine completes_create fun _ => ?_
      show Completes σ stops ok (createCompare (.commutative :: next) next k.swap r l) _
      rw [createCompare, if_neg (by simp [hcr.2])]
      exact (next_agrees h (hP.compare hp) hswap.wellSorted).mono fun e he => he.trans hswap
  next => exact next_agrees h hp hc

include hP h in
theorem sub_agrees {l r : Expr} (hp : P (.binary .sub l r))
    (hc : (Call.binary .sub l r).plain.WellSorted) :
    Completes σ stops ok (ExprBuilder.create (.commutative :: next) (.binary .sub l r))
      (fun e => Agrees E e (Call.binary .sub l r).plain) := by
  obtain ⟨n, hl, hr⟩ := (wellSorted_binary_iff rfl).1 hc
  refine completes_create fun _ => ?_
  show Completes σ stops ok (createSub (.commutative :: next) next l r) _
  rw [createSub]
  split
  -- X - C_0 = -C_0 + X
  next =>
      have hneg : (Call.unary .neg r).plain.IsBV n := ⟨⟨hr.1, hr.2⟩, rfl, hr.3⟩
      refine Terminates.bind (completes_create fun _ => next_agrees h (hP.sub hp).1 hneg.wellSorted)
        fun c hcc => ?_
      have hcv := hcc.isBV hneg
      have hsum : (Call.binary .add c l).plain.IsBV n := isBV_binary rfl hcv hl 0
      refine (binary_agrees hP h rfl ((hP.sub hp).2 c) hsum.wellSorted).mono fun e he => ?_
      refine he.trans (.of_bv hsum (isBV_binary (k := .sub) rfl hl hr 0) fun ρ hρ => ?_)
      refine (bv_binary ρ 0 .add hcv.bits).trans (Eq.trans ?_ (bv_binary ρ 0 .sub hl.bits).symm)
      rw [hcc.bv hρ n, show (Call.unary .neg r).plain.bv ρ n = -r.bv ρ n from
        bv_unary ρ 0 .neg hr.bits]
      simp only [BinaryKind.apply]
      ring
  next => exact next_agrees h hp hc

include hP h in
/-- `CommutativeExprBuilder` is right for a class of calls that `next` is right for. -/
theorem create_agrees {c : Call} (hp : P c) (hc : c.plain.WellSorted) :
    Completes σ stops ok (ExprBuilder.create (.commutative :: next) c)
      (fun e => Agrees E e c.plain) := by
  cases c with
  | binary k l r =>
      cases k with
      | sub => exact sub_agrees hP h hp hc
      | add | mul | and | or | xor | land | lor => exact binary_agrees hP h rfl hp hc
      | _ => exact completes_create fun _ => next_agrees h hp hc
  | compare k l r => exact compare_agrees hP h hp hc
  | _ => exact completes_create fun _ => next_agrees h hp hc

end CommutativeExprBuilder

/-! ### The whole chain -/

section Chain

variable (σ : Session) (E : Input → Prop)

/-- The layers below the rewriting ones. -/
theorem lower_completes (stops : Prop) (ok : MethodCall → Prop) :
    CompletesOn σ stops ok E true [.common, .constantFolding, .cache, .base] :=
  common_completes (constantFolding_completes (cache_completes (base_completes σ E [])))

theorem lower_refines : Refines σ E true [.common, .constantFolding, .cache, .base] :=
  (lower_completes σ E False anyCall).refines

theorem chain_structural {c : Call} (hs : c.isStructural = true) (hc : c.plain.WellSorted) :
    Builds σ anyCall (SymbolicExprBuilder.chain.create c) (fun e => Agrees E e c.plain) := by
  have hP : CommutativeExprBuilder.Closed fun c => c.isStructural = true :=
    { binary := fun {k _ _} hk => by cases k <;> exact hk
      compare := fun _ => rfl
      sub := fun hk => nomatch hk }
  exact (CommutativeExprBuilder.create_agrees hP
    (fun c hs hc => symbolic_structural (lower_completes σ E False _) hs hc) hs hc).total

theorem chain_meets {c : Call} (hs : c.isSDiv = false) (hc : c.plain.WellSorted) :
    Builds σ (FoldsExactly E) (SymbolicExprBuilder.chain.create c)
      (fun e => Agrees E e c.plain) := by
  have hP : CommutativeExprBuilder.Closed fun c => c.isSDiv = false :=
    { binary := fun {k _ _} hk => by cases k <;> exact hk
      compare := fun _ => rfl
      sub := fun _ => ⟨rfl, fun _ => rfl⟩ }
  exact (CommutativeExprBuilder.create_agrees hP (fun c hs hc =>
    symbolic_meets (lower_completes σ E False _) (fun _ h => h.pointwise) hs hc) hs hc).total

end Chain

/-! ### What the chain keeps -/

namespace Call

/-- `createAdd`, `createSub`, `createMul` and `createNeg`. -/
def isArithmetic : Call → Bool
  | unary .neg _ | binary .add _ _ | binary .sub _ _ | binary .mul _ _ => true
  | _ => false

/-- `createConcat`, `createExtract`, `createZExt`, the bitwise operations and the shifts. -/
def isBitStructure : Call → Bool
  | concat .. | extract .. | ext .zext _ _ => true
  | binary k _ _ =>
      match k with
      | .and | .or | .xor | .shl | .lshr | .ashr => true
      | _ => false
  | _ => false

/-- The comparisons, the connectives and `createIte`. -/
def isTest : Call → Bool
  | compare .. | ite .. | unary .lnot _ | binary .land _ _ | binary .lor _ _ => true
  | _ => false

end Call

section Keeps

variable (σ : Session) (w : World) (ρ : Input)

/-- The chain returns a bit vector with the width of the plain node and its value under `ρ`. -/
def KeepsValue (c : Call) : Prop :=
  ∃ e w', Runs (body σ) (SymbolicExprBuilder.chain.create c) w e w' ∧
    e.isBoolean = c.plain.isBoolean ∧ e.bits = c.plain.bits ∧ e.value ρ = c.plain.value ρ

/-- Every call that the chain comes to folds its divisions exactly under `ρ`. -/
def FoldsExactlyAt (c : Call) : Prop :=
  Safe (body σ) (FoldsExactly (· = ρ)) (SymbolicExprBuilder.chain.create c) w

theorem keepsValue_of_foldsExactly {c : Call} (hs : c.isSDiv = false) (hws : c.plain.WellSorted)
    (hexact : c.isStructural = false → FoldsExactlyAt σ w ρ c) : KeepsValue σ w ρ c := by
  by_cases hstr : c.isStructural = true
  · obtain ⟨e, w', hr, -, ha⟩ := chain_structural σ (· = ρ) hstr hws w trivial fun _ _ => trivial
    exact ⟨e, w', hr, ha.isBoolean, ha.bits, ha.value ρ rfl⟩
  · obtain ⟨e, w', hr, -, ha⟩ :=
      chain_meets σ (· = ρ) hs hws w trivial (hexact (by simpa using hstr))
    exact ⟨e, w', hr, ha.isBoolean, ha.bits, ha.value ρ rfl⟩

/-- Arithmetic keeps its value under an assignment if no division it comes to is
folded inexactly under it. `createNeg` comes to none. -/
theorem arithmetic_keepsValue {c : Call} (hc : c.isArithmetic = true) (hws : c.plain.WellSorted)
    (hexact : c.isStructural = false → FoldsExactlyAt σ w ρ c) : KeepsValue σ w ρ c := by
  refine keepsValue_of_foldsExactly σ w ρ ?_ hws hexact
  cases c with
  | binary k _ _ => cases k <;> first | rfl | cases hc
  | _ => rfl

/-- So does the bit structure. Only `createExtract` and `createOr` come to divisions. -/
theorem bitStructure_keepsValue {c : Call} (hc : c.isBitStructure = true)
    (hws : c.plain.WellSorted) (hexact : c.isStructural = false → FoldsExactlyAt σ w ρ c) :
    KeepsValue σ w ρ c := by
  refine keepsValue_of_foldsExactly σ w ρ ?_ hws hexact
  cases c with
  | binary k _ _ => cases k <;> first | rfl | cases hc
  | _ => rfl

/-- Tests keep their truth. They come to no division. -/
theorem test_keepsValue {c : Call} (hc : c.isTest = true) (hws : c.plain.WellSorted) :
    KeepsValue σ w ρ c := by
  have hstr : c.isStructural = true := by
    cases c with
    | binary k _ _ => cases k <;> first | rfl | cases hc
    | extract => cases hc
    | _ => rfl
  obtain ⟨e, w', hr, -, ha⟩ := chain_structural σ (· = ρ) hstr hws w trivial fun _ _ => trivial
  exact ⟨e, w', hr, ha.isBoolean, ha.bits, ha.value ρ rfl⟩

end Keeps

/-! ### Divisions folded inexactly -/

/-- `(Read 0) / 16` over eight bits. -/
def byteQuotient : Expr :=
  .binary 1 .udiv (.read 0) (.constant 0 8 16)

/-- `SExt(C(0, (Read 0) / 16)) / 16` over sixteen bits. -/
def nestedQuotient : Expr :=
  .binary 6 .udiv (.ext 4 .sext (.concat 3 (.constant 2 8 0) byteQuotient) 16)
    (.constant 5 16 16)

/-- Adding zero takes the sum apart at its zero bits, which narrows the quotient and
folds `16 * 16` over eight bits. -/
def addZero : Call :=
  .binary .add (.constant 7 16 0) nestedQuotient

theorem addZero_run : ((SymbolicExprBuilder.chain.create addZero).run
    (exec (body quietSession) 40) (freshWorld 8)).map (fun x => x.1.value fun _ => 255) =
      some 255 := by
  decide +kernel

/-- Under the byte 255 the sum is `255 / 16 / 16 = 0`, but the result is `255 / 0`. -/
theorem addZero_not_keepsValue : addZero.isArithmetic = true ∧ addZero.plain.WellSorted ∧
    ¬ KeepsValue quietSession (freshWorld 8) (fun _ => 255) addZero := by
  refine ⟨rfl, by decide, ?_⟩
  rintro ⟨e, w', hr, -, -, hv⟩
  exact absurd ((hr.eq_of_run addZero_run).symm.trans hv) (by decide +kernel)

/-- The low byte of `ZExt((Read 0) / 16) / 16`. -/
def narrowQuotient (d : Nat) : Call :=
  .extract (.binary 4 .udiv (.ext 2 .zext (.binary 1 .udiv (.read 0)
    (.constant 0 8 (BitVec.ofNat 8 d))) 16) (.constant 3 16 (BitVec.ofNat 16 d))) 0 8

theorem narrowQuotient_run : ((SymbolicExprBuilder.chain.create (narrowQuotient 16)).run
    (exec (body quietSession) 40) (freshWorld 5)).map (fun x => x.1.value fun _ => 255) =
      some 255 := by
  decide +kernel

theorem narrowQuotient_not_keepsValue : (narrowQuotient 16).isBitStructure = true ∧
    (narrowQuotient 16).plain.WellSorted ∧
    ¬ KeepsValue quietSession (freshWorld 5) (fun _ => 255) (narrowQuotient 16) := by
  refine ⟨rfl, by decide, ?_⟩
  rintro ⟨e, w', hr, -, -, hv⟩
  exact absurd ((hr.eq_of_run narrowQuotient_run).symm.trans hv) (by decide +kernel)

/-- A divisor of 3 may be folded with itself. -/
theorem narrowQuotient_keepsValue :
    KeepsValue quietSession (freshWorld 5) (fun _ => 255) (narrowQuotient 3) :=
  bitStructure_keepsValue _ _ _ rfl (by decide) fun _ =>
    safe_of_trace (n := 40) (by decide +kernel)

/-- A difference taken apart and put together again. -/
theorem differences_keepValue :
    KeepsValue quietSession (freshWorld 4) (fun i => BitVec.ofNat 8 i)
      (.binary .sub (.binary 1 .sub (.read 0) (.constant 0 8 3))
        (.binary 3 .add (.constant 2 8 7) (.read 1))) :=
  arithmetic_keepsValue _ _ _ rfl (by decide) fun _ =>
    safe_of_trace (n := 40) (by decide +kernel)

/-- `5 < Read 0`, with the constant on the right. -/
theorem mirrored_keepsValue :
    KeepsValue quietSession (freshWorld 1) (fun _ => 6)
      (.compare .ugt (.read 0) (.constant 0 8 5)) :=
  test_keepsValue _ _ _ rfl (by decide)

end Qsym
