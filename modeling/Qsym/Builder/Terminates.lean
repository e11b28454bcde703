import Qsym.Builder.Pruned

/-!
# Qsym.Builder.Terminates

The chains come to an end on every well-sorted call, divisions included. What the
rewriting does depends on the shapes of the operands, never on values, so this is the
contract of the layers under no input at all: what is left of it is the sort, the width
and the weight by which the calls decrease. A constant divided by zero ends the process,
and so does evaluating a byte that the input does not have; both are ends as well.
-/

namespace Qsym

open Procedure Qsym.Expr

/-- Agreement under no input is agreement in sort and width. -/
abbrev noInput : Input → Prop :=
  fun _ => False

/-- The calls that may give an answer: they do more than stop. -/
def Answerable (σ : Session) (m : MethodCall) : Prop :=
  ¬ Completes σ True anyCall (body σ m) fun _ => False

variable {σ : Session} {next : ExprBuilder} {c : Call} {l r : Expr} {n : Nat}

/-! ### Divisions by zero -/

theorem constantFolding_not_answerable (ht : c.traps = true) :
    ¬ Answerable σ ⟨.constantFolding :: next, c⟩ := by
  rw [Answerable, not_not, constantFolding_of_traps next ht]
  exact .stop trivial

theorem common_not_answerable (ht : c.traps = true) :
    ¬ Answerable σ ⟨.common :: .constantFolding :: next, c⟩ := by
  rw [Answerable, not_not, common_of_traps _ ht]
  exact completes_create fun _ => not_not.1 (constantFolding_not_answerable ht)

theorem symbolic_of_traps (ht : c.traps = true) :
    body σ ⟨.symbolic :: next, c⟩ = next.create c := by
  cases c with
  | binary k l r =>
      simp only [Call.traps, Bool.and_eq_true, isConstant_iff, isZero_iff] at ht
      obtain ⟨⟨hk, ref, n, v, rfl⟩, ref', m, rfl⟩ := ht
      cases k <;> first | rfl | cases hk
  | _ => cases ht

theorem traps_of_answerable
    (h : Answerable σ ⟨.symbolic :: .common :: .constantFolding :: next, c⟩) :
    c.traps = false := by
  by_contra ht
  have ht : c.traps = true := by simpa using ht
  refine h ?_
  rw [symbolic_of_traps ht]
  exact completes_create fun _ => not_not.1 (common_not_answerable ht)

/-! ### Signed quotients -/

namespace SymbolicExprBuilder

variable {stops : Prop} {ok : MethodCall → Prop}
variable (h : CompletesOn σ stops ok noInput true next)
variable (hok : ∀ c, ok ⟨.symbolic :: next, c⟩ → c.traps = false)

theorem foldsPointwise_noInput (ht : c.traps = false) :
    FoldsPointwise noInput ⟨.symbolic :: next, c⟩ :=
  ⟨ht, nofun⟩

include h in
theorem nextSDiv_completes (hl : l.IsBV n) (hr : r.IsBV n)
    (ht : (Call.binary .sdiv l r).traps = false) :
    Completes σ stops ok (next.createSDiv l r) (·.IsBV n) := by
  have hp : (Call.binary .sdiv l r).plain.IsBV n := isBV_binary rfl hl hr 0
  exact (h.completes hp.wellSorted ht).mono fun e he => he.agrees.isBV hp

include h in
theorem createNeg_completes (hl : l.IsBV n) :
    Completes σ stops ok (ExprBuilder.createNeg (.symbolic :: next) l) (·.IsBV n) := by
  have hp : (Call.unary .neg l).plain.IsBV n := ⟨⟨hl.wellSorted, hl.isBoolean⟩, rfl, hl.bits⟩
  exact completes_create fun _ => (h.completes hp.wellSorted rfl).mono fun e he => he.agrees.isBV hp

include h in
theorem createSExt_completes {w : Nat} (hl : l.IsBV n) (hw : n ≤ w) :
    Completes σ stops ok (ExprBuilder.createSExt (.symbolic :: next) l w) (·.IsBV w) := by
  have hp : (Call.ext .sext l w).plain.IsBV w :=
    ⟨⟨hl.wellSorted, hl.isBoolean, hl.bits.trans_le hw⟩, rfl, rfl⟩
  exact completes_create fun _ => (h.completes hp.wellSorted rfl).mono fun e he => he.agrees.isBV hp

include h hok in
/-- `createSDiv` goes down into the dividend. -/
theorem sdiv_completes (hl : l.IsBV n) (hr : r.IsBV n) :
    Completes σ stops ok (ExprBuilder.createSDiv (.symbolic :: next) l r) (·.IsBV n) := by
  have hexact : ∀ c, ok ⟨.symbolic :: next, c⟩ → FoldsPointwise noInput ⟨.symbolic :: next, c⟩ :=
    fun c hc => foldsPointwise_noInput (hok c hc)
  induction l generalizing r n with
  | ext ref k x w ih =>
      refine completes_create fun hm => ?_
      have hnext := nextSDiv_completes h hl hr (hok _ hm)
      show Completes σ stops ok (createSDiv (.symbolic :: next) next (ext ref k x w) r) _
      unfold createSDiv
      split
      next ref' m v =>
          rw [if_neg (by simp [isConstant])]
          unfold createSDivConst
          split
          next => exact createNeg_completes h hl
          cases k with
          | zext => exact hnext
          | sext =>
              obtain ⟨hx, hxb, hw⟩ := hl.wellSorted
              obtain rfl : w = n := hl.bits
              have hx : x.IsBV x.bits := ⟨hx, hxb, rfl⟩
              have hi : 0 + x.bits ≤ w := by omega
              simp only
              split
              next =>
                  refine Terminates.bind (extract_builds h hexact hr hx.pos hi) fun er her => ?_
                  have her := her.agrees.isBV (isBV_extract hr hx.pos hi 0)
                  refine Terminates.bind (ih hx her) fun q hq => ?_
                  exact createSExt_completes h hq hw
              next => exact hnext
      next => exact hnext
  | binary ref k x c ihx _ =>
      refine completes_create fun hm => ?_
      have hnext := nextSDiv_completes h hl hr (hok _ hm)
      obtain ⟨hx, hc⟩ := hl.operands
      show Completes σ stops ok (createSDiv (.symbolic :: next) next (binary ref k x c) r) _
      unfold createSDiv
      split
      next ref' m v =>
          rw [if_neg (by simp [isConstant])]
          unfold createSDivConst
          split
          next => exact createNeg_completes h hl
          cases k with
          | sdiv =>
              simp only [createSDivNested]
              split
              next =>
                  have hp := isBV_binary (k := .mul) rfl hc hr 0
                  refine Terminates.bind (arith_meets h hexact (.binary .mul c _) rfl hp.wellSorted)
                    fun d hd => ?_
                  exact ihx hx (hd.agrees.isBV hp)
              next => exact hnext
          | _ => exact hnext
      next => exact hnext
  | _ =>
      refine completes_create fun hm => ?_
      have hnext := nextSDiv_completes h hl hr (hok _ hm)
      show Completes σ stops ok (createSDiv (.symbolic :: next) next _ r) _
      unfold createSDiv
      split
      next =>
          split
          next => exact hnext
          unfold createSDivConst
          split
          next => exact createNeg_completes h hl
          exact hnext
      next => exact hnext

include h hok in
/-- The symbolic layer comes to an end on every call. -/
theorem create_completes (hc : c.plain.WellSorted) :
    Completes σ stops ok (ExprBuilder.create (.symbolic :: next) c) (c.Meets noInput true) := by
  have hexact : ∀ c, ok ⟨.symbolic :: next, c⟩ → FoldsPointwise noInput ⟨.symbolic :: next, c⟩ :=
    fun c hc => foldsPointwise_noInput (hok c hc)
  cases hs : c.isSDiv with
  | false => exact symbolic_meets h hexact hs hc
  | true =>
      cases c with
      | binary k l r =>
          cases k with
          | sdiv =>
              obtain ⟨n, hl, hr⟩ := (wellSorted_binary_iff rfl).1 hc
              have hp : (Call.binary .sdiv l r).plain.IsBV n := isBV_binary rfl hl hr 0
              exact (sdiv_completes h hok hl hr).mono fun e he =>
                Call.meets_of_agrees rfl rfl (.of_bv he hp nofun) true
          | _ => cases hs
      | _ => cases hs

end SymbolicExprBuilder

/-! ### The chains -/

/-- What the rewriting layers make of the layers below them. -/
theorem rewriting_completes
    (h : CompletesOn σ True (Answerable σ) noInput true (.common :: .constantFolding :: next))
    (hc : c.plain.WellSorted) :
    Completes σ True anyCall
      (ExprBuilder.create (.commutative :: .symbolic :: .common :: .constantFolding :: next) c)
      (fun e => Agrees noInput e c.plain) := by
  have hclosed : CommutativeExprBuilder.Closed fun _ => True :=
    { binary := fun _ => trivial
      compare := fun _ => trivial
      sub := fun _ => ⟨trivial, fun _ => trivial⟩ }
  have hchain := CommutativeExprBuilder.create_agrees hclosed
    (fun _ _ hc => SymbolicExprBuilder.create_completes h (fun _ => traps_of_answerable) hc)
    trivial hc
  exact hchain.of_stops fun _ hm => not_not.1 hm

/-- Both chains come to an end on every well-sorted call, whatever is cached, expired or
found interesting when they look. -/
theorem create_completes (σ : Session) {b : ExprBuilder}
    (hb : b = SymbolicExprBuilder.chain ∨ b = PruneExprBuilder.chain) (hc : c.plain.WellSorted) :
    Completes σ True anyCall (b.create c) (fun e => Agrees noInput e c.plain) := by
  rcases hb with rfl | rfl
  · exact rewriting_completes (lower_completes σ noInput True (Answerable σ)) hc
  · refine rewriting_completes (pruned_completes (nofun) fun m hm => ⟨?_, fun hb => ?_⟩) hc
    · exact over_iff_getDeps.2 fun i _ => .inl trivial
    · by_contra ht
      obtain ⟨b, c⟩ := m
      obtain rfl : b = CEB := hb
      exact constantFolding_not_answerable (by simpa using ht) hm

/-- **The rewriting terminates.** On a well-sorted call, every execution of either chain
ends. No call that it comes to, whichever rewriting made it, is come to again from inside
itself, and there is no infinite chain of calls, not even one of calls made in different
states. -/
theorem create_terminates (σ : Session) {b : ExprBuilder}
    (hb : b = SymbolicExprBuilder.chain ∨ b = PruneExprBuilder.chain) {c : Call}
    (hc : c.plain.WellSorted) :
    (∀ w, Ends (body σ) (b.create c) w) ∧
      (∀ w w' m, Reaches (body σ) (b.create c) w m → ¬ Reaches (body σ) (body σ m) w' m) ∧
      ∀ f : Nat → MethodCall, f 0 = ⟨b, c⟩ → ¬ ∀ n, CalledBy (body σ) (f (n + 1)) (f n) := by
  have h := create_completes σ hb hc
  refine ⟨h.ends, fun w w' m => h.not_reaches, fun f h0 => h.no_chain ?_⟩
  rw [h0]
  exact .here

/-- `(Read 0) /s 3 /s 5 - 7`, through the chain with pruning. -/
theorem create_terminates_difference :
    let c : Call := .binary .sub (.binary 3 .sdiv (.binary 1 .sdiv (.read 0) (.constant 0 8 3))
      (.constant 2 8 5)) (.constant 4 8 7)
    (∀ w, Ends (body quietSession) (PruneExprBuilder.chain.create c) w) ∧
      (∀ w w' m, Reaches (body quietSession) (PruneExprBuilder.chain.create c) w m →
        ¬ Reaches (body quietSession) (body quietSession m) w' m) ∧
      ∀ f : Nat → MethodCall, f 0 = ⟨PruneExprBuilder.chain, c⟩ →
        ¬ ∀ n, CalledBy (body quietSession) (f (n + 1)) (f n) :=
  create_terminates quietSession (.inr rfl) (by decide)

end Qsym
