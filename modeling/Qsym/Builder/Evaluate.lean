import Qsym.Builder.Lower
import Qsym.Expr.Deps
import Qsym.Expr.ToZ3

/-!
# Qsym.Builder.Evaluate

The concrete evaluator. `Expr::evaluate` rebuilds an expression with the constant
folding builder `CEB` on the input of the session. On constant operands `CEB`
answers with a constant, so `checkExpr` never fails, and the constant is the value
the solver term has (`evaluate_eq_toZ3Expr`).
-/

namespace Qsym

open Procedure Qsym.Expr Bits

/-- The input bytes of a session. -/
def Session.input (σ : Session) : Input :=
  fun i => σ.inputs.getD i 0

namespace CEB

variable {σ : Session} {stops : Prop} {ok : MethodCall → Prop} {E : Input → Prop}

theorem completesOn (σ : Session) (E : Input → Prop) : CompletesOn σ stops ok E true CEB :=
  constantFolding_completes (base_completes σ E [])

theorem constant_literal {n : Nat} (hn : 0 < n) (v : BitVec n) :
    Completes σ stops ok (CEB.create (.constant n v)) (fun x => x.isLiteral = true) :=
  ((completesOn σ fun _ => True).constant hn v).mono fun _ ⟨_, hx⟩ => hx ▸ rfl

theorem bool_literal (b : Bool) :
    Completes σ stops ok (CEB.createBool b) (fun x => x.isLiteral = true) :=
  ((completesOn σ fun _ => True).bool b).mono fun _ ⟨_, hx⟩ => hx ▸ rfl

theorem constant_of_literal {x : Expr} (hl : x.isLiteral = true) (h : x.isBoolean = false) :
    ∃ ref n v, x = .constant ref n v := by
  cases x with
  | constant ref n v => exact ⟨ref, n, v, rfl⟩
  | bool => cases h
  | _ => cases hl

theorem bool_of_literal {x : Expr} (hl : x.isLiteral = true) (h : x.isBoolean = true) :
    ∃ ref b, x = .bool ref b := by
  cases x with
  | bool ref b => exact ⟨ref, b, rfl⟩
  | constant => cases h
  | _ => cases hl

/-- The operands of a call. -/
def operands : Call → List Expr
  | .bool _ | .constant _ _ | .read _ => []
  | .extract e _ _ | .ext _ e _ | .unary _ e => [e]
  | .concat l r | .binary _ l r | .compare _ l r => [l, r]
  | .ite c t f => [c, t, f]

theorem binary_literal {k : BinaryKind} {l r : Expr} (hc : (Call.binary k l r).plain.WellSorted)
    (ht : (Call.binary k l r).traps = false) (hl : l.isLiteral = true) (hr : r.isLiteral = true) :
    Completes σ stops ok (CEB.create (.binary k l r)) (fun x => x.isLiteral = true) := by
  refine completes_create fun _ => ?_
  by_cases hk : k.isLogical = true
  · obtain ⟨hlb, hrb⟩ := (wellSorted_logical_iff hk).1 hc
    obtain ⟨ref, b, rfl⟩ := bool_of_literal hl hlb.2
    obtain ⟨ref', b', rfl⟩ := bool_of_literal hr hrb.2
    cases k with
    | land | lor => exact bool_literal _
    | _ => cases hk
  · have hk : k.isLogical = false := by simpa using hk
    obtain ⟨n, hlb, hrb⟩ := (wellSorted_binary_iff hk).1 hc
    obtain ⟨ref, m, v, rfl⟩ := constant_of_literal hl hlb.2
    obtain ⟨ref', m', w, rfl⟩ := constant_of_literal hr hrb.2
    obtain rfl : m = n := hlb.bits
    obtain rfl : m' = m := hrb.bits
    have hw : k.isDivision = true → w ≠ 0 := fun hd h0 => by
      simp [Call.traps, isConstant, isZero, hd, h0] at ht
    have hbody : body σ ⟨CEB, .binary k (.constant ref _ v) (.constant ref' _ w)⟩ =
        CEB.create (.constant _ (k.apply v w)) := by
      have harith : body σ ⟨CEB, .binary k (.constant ref _ v) (.constant ref' _ w)⟩ =
          ConstantFoldingExprBuilder.createArith CEB [.base] k (.constant ref _ v)
            (.constant ref' _ w) := by
        cases k <;> first | rfl | cases hk
      rw [harith]
      simp [ConstantFoldingExprBuilder.createArith, BinaryKind.fold_eq_some hk hw]
    rw [hbody]
    exact constant_literal hlb.pos _

theorem compare_literal {k : CompareKind} {l r : Expr}
    (hc : (Call.compare k l r).plain.WellSorted) (hl : l.isLiteral = true)
    (hr : r.isLiteral = true) :
    Completes σ stops ok (CEB.create (.compare k l r)) (fun x => x.isLiteral = true) := by
  obtain ⟨hlw, hrw, hb, hbb, hk⟩ := hc
  refine completes_create fun _ => ?_
  by_cases hlb : l.isBoolean = true
  · obtain ⟨ref, b, rfl⟩ := bool_of_literal hl hlb
    obtain ⟨ref', b', rfl⟩ := bool_of_literal hr (hbb.symm.trans hlb)
    cases k with
    | equal | distinct => exact bool_literal _
    | _ => exact nomatch hk rfl
  · have hlb : l.isBoolean = false := by simpa using hlb
    obtain ⟨ref, n, v, rfl⟩ := constant_of_literal hl hlb
    obtain ⟨ref', m, w, rfl⟩ := constant_of_literal hr (hbb.symm.trans hlb)
    obtain rfl : n = m := hb
    have hbody : body σ ⟨CEB, .compare k (.constant ref _ v) (.constant ref' _ w)⟩ =
        CEB.createBool (k.fold v w) := by
      simp [CEB, body, ConstantFoldingExprBuilder.body, ConstantFoldingExprBuilder.createCompare]
    rw [hbody]
    exact bool_literal _

/-- `CEB` answers literals on literals. -/
theorem create_literal {c : Call} (hc : c.plain.WellSorted) (ht : c.traps = false)
    (hleaf : c.isLeaf = false) (hops : ∀ x ∈ operands c, x.isLiteral = true) :
    Completes σ stops ok (CEB.create c) (fun x => x.isLiteral = true) := by
  cases c with
  | bool | constant | read => cases hleaf
  | concat l r =>
      obtain ⟨hlw, hrw, hlb, hrb⟩ := hc
      obtain ⟨ref, n, v, rfl⟩ := constant_of_literal (hops l (by simp [operands])) hlb
      obtain ⟨ref', m, w, rfl⟩ := constant_of_literal (hops r (by simp [operands])) hrb
      exact completes_create fun _ => constant_literal (Nat.add_pos_left hlw _) _
  | extract e i b =>
      obtain ⟨hw, hb, h0, -⟩ := hc
      obtain ⟨ref, n, v, rfl⟩ := constant_of_literal (hops e (by simp [operands])) hb
      exact completes_create fun _ => constant_literal h0 _
  | ext k e b =>
      obtain ⟨hw, hb, hle⟩ := hc
      obtain ⟨ref, n, v, rfl⟩ := constant_of_literal (hops e (by simp [operands])) hb
      exact completes_create fun _ => constant_literal (Nat.lt_of_lt_of_le hw hle) _
  | unary k e =>
      obtain ⟨hw, hb⟩ := hc
      have he := hops e (by simp [operands])
      cases k with
      | lnot =>
          obtain ⟨ref, b, rfl⟩ := bool_of_literal he hb
          exact completes_create fun _ => bool_literal _
      | neg | not =>
          obtain ⟨ref, n, v, rfl⟩ := constant_of_literal he hb
          exact completes_create fun _ => constant_literal hw _
  | binary k l r =>
      exact binary_literal hc ht (hops l (by simp [operands])) (hops r (by simp [operands]))
  | compare k l r =>
      exact compare_literal hc (hops l (by simp [operands])) (hops r (by simp [operands]))
  | ite c t f =>
      obtain ⟨hcw, -, -, hcb, -⟩ := hc
      obtain ⟨ref, b, rfl⟩ := bool_of_literal (hops c (by simp [operands])) hcb
      refine completes_create fun _ => Terminates.ret ?_
      cases b with
      | true => exact hops t (by simp [operands])
      | false => exact hops f (by simp [operands])

end CEB

section Evaluate

variable {σ : Session} {stops : Prop} {ok : MethodCall → Prop}

/-- One step of the evaluator: the call on evaluated operands, and `checkExpr`. -/
theorem checked_completes {c : Call} {e : Expr} (hc : Agrees (· = σ.input) c.plain e)
    (ht : ok ⟨CEB, c⟩ → c.traps = false) (hleaf : c.isLeaf = false)
    (hops : ∀ x ∈ CEB.operands c, x.isLiteral = true) :
    Completes σ stops ok ((CEB.create c).bind checkExpr)
      (fun x => x.isLiteral = true ∧ Agrees (· = σ.input) x e) := by
  have hcreate : Completes σ stops ok (CEB.create c)
      (fun x => c.Meets (· = σ.input) true x ∧ x.isLiteral = true) := by
    refine completes_create fun hok => ?_
    have hmeets : Completes σ stops ok (CEB.create c) (c.Meets (· = σ.input) true) :=
      CEB.completesOn σ (· = σ.input) c hc.wellSorted (ht hok)
    exact (hmeets.and (CEB.create_literal hc.wellSorted (ht hok) hleaf hops)).body_of_tail hok
  refine Terminates.bind hcreate ?_
  rintro x ⟨hx, hlit⟩
  cases x with
  | constant | bool => exact Terminates.ret ⟨rfl, hx.agrees.trans hc⟩
  | _ => cases hlit

/-- The evaluator gives a literal with the value of the expression, as long as it does not
come to a division by zero. -/
theorem evaluate_completes {e : Expr} (h : e.WellSorted)
    (hr : ∀ i ∈ e.getDeps, stops ∨ i < σ.inputs.length)
    (hd : e.DivisorsNonzero σ.input ∨ ∀ c, ok ⟨CEB, c⟩ → c.traps = false) :
    Completes σ stops ok (e.evaluate σ)
      (fun x => x.isLiteral = true ∧ Agrees (· = σ.input) x e) := by
  induction e with
  | bool ref b =>
      exact completes_makeShared rfl fun _ => ⟨rfl, trivial, rfl, rfl, fun _ _ => rfl⟩
  | constant ref n v =>
      exact completes_makeShared rfl fun _ => ⟨rfl, h, rfl, rfl, fun _ _ => rfl⟩
  | read i =>
      rw [evaluate]
      split
      next v hv =>
          refine completes_makeShared rfl fun _ => ⟨rfl, Nat.zero_lt_succ 7, rfl, rfl, ?_⟩
          rintro _ rfl
          simp [Call.node, value, Session.input, hv]
      next hnone =>
          have hi := hr i (Finset.mem_singleton_self i)
          exact Terminates.stop (hi.resolve_right (by simpa using hnone))
  | concat ref l r ihl ihr =>
      refine Terminates.bind (ihl h.1 (fun i hi => hr i (Finset.mem_union_left _ hi))
        (hd.imp_left (·.1))) ?_
      rintro x ⟨hx, hxl⟩
      refine Terminates.bind (ihr h.2.1 (fun i hi => hr i (Finset.mem_union_right _ hi))
        (hd.imp_left (·.2))) ?_
      rintro y ⟨hy, hyr⟩
      exact checked_completes (c := .concat x y) (hxl.concat hyr h 0) (fun _ => rfl) rfl
        (by simp [CEB.operands, hx, hy])
  | extract ref e i b ih =>
      refine Terminates.bind (ih h.1 hr hd) ?_
      rintro x ⟨hx, hxe⟩
      exact checked_completes (c := .extract x i b) (hxe.extract h 0) (fun _ => rfl) rfl
        (by simp [CEB.operands, hx])
  | ext ref k e b ih =>
      refine Terminates.bind (ih h.1 hr hd) ?_
      rintro x ⟨hx, hxe⟩
      exact checked_completes (c := .ext k x b) (hxe.ext h 0) (fun _ => rfl) rfl
        (by simp [CEB.operands, hx])
  | unary ref k e ih =>
      refine Terminates.bind (ih h.1 hr hd) ?_
      rintro x ⟨hx, hxe⟩
      exact checked_completes (c := .unary k x) (hxe.unary h 0) (fun _ => rfl) rfl
        (by simp [CEB.operands, hx])
  | binary ref k l r ihl ihr =>
      refine Terminates.bind (ihl h.1 (fun i hi => hr i (Finset.mem_union_left _ hi))
        (hd.imp_left (·.1))) ?_
      rintro x ⟨hx, hxl⟩
      refine Terminates.bind (ihr h.2.1 (fun i hi => hr i (Finset.mem_union_right _ hi))
        (hd.imp_left (·.2.1))) ?_
      rintro y ⟨hy, hyr⟩
      have ht : ok ⟨CEB, .binary k x y⟩ → (Call.binary k x y).traps = false := by
        intro hok
        by_contra hc
        obtain hd | hd := hd
        swap
        · exact hc (hd _ hok)
        simp only [Call.traps, Bool.not_eq_false, Bool.and_eq_true, isZero_iff] at hc
        obtain ⟨⟨hk, -⟩, ref', n, rfl⟩ := hc
        exact hd.2.2 hk ((hyr.value _ rfl).symm.trans (by simp [value]))
      exact checked_completes (c := .binary k x y) (hxl.binary hyr h 0) ht rfl
        (by simp [CEB.operands, hx, hy])
  | compare ref k l r ihl ihr =>
      refine Terminates.bind (ihl h.1 (fun i hi => hr i (Finset.mem_union_left _ hi))
        (hd.imp_left (·.1))) ?_
      rintro x ⟨hx, hxl⟩
      refine Terminates.bind (ihr h.2.1 (fun i hi => hr i (Finset.mem_union_right _ hi))
        (hd.imp_left (·.2))) ?_
      rintro y ⟨hy, hyr⟩
      exact checked_completes (c := .compare k x y) (hxl.compare hyr h 0) (fun _ => rfl) rfl
        (by simp [CEB.operands, hx, hy])
  | ite ref c t f ihc iht ihf =>
      have hrct := fun i hi => hr i (Finset.mem_union_left _ hi)
      refine Terminates.bind (ihc h.1 (fun i hi => hrct i (Finset.mem_union_left _ hi))
        (hd.imp_left (·.1))) ?_
      rintro x ⟨hx, hxc⟩
      refine Terminates.bind (iht h.2.1 (fun i hi => hrct i (Finset.mem_union_right _ hi))
        (hd.imp_left (·.2.1))) ?_
      rintro y ⟨hy, hyt⟩
      refine Terminates.bind (ihf h.2.2.1 (fun i hi => hr i (Finset.mem_union_right _ hi))
        (hd.imp_left (·.2.2))) ?_
      rintro z ⟨hz, hzf⟩
      exact checked_completes (c := .ite x y z) (hxc.ite hyt hzf h 0) (fun _ => rfl) rfl
        (by simp [CEB.operands, hx, hy, hz])

theorem evaluate_builds {e : Expr} (h : e.WellSorted)
    (hr : ∀ i ∈ e.getDeps, i < σ.inputs.length) (hd : e.DivisorsNonzero σ.input) :
    Builds σ anyCall (e.evaluate σ)
      (fun x => x.isLiteral = true ∧ Agrees (· = σ.input) x e) :=
  Terminates.total (evaluate_completes h (fun i hi => .inr (hr i hi)) (.inl hd))

/-- A literal of the denotation of an expression. -/
def IsLiteralOf (x : Expr) : Smt.Value → Prop
  | .bool b => ∃ ref, x = .bool ref b
  | .bv n v => ∃ ref, x = .constant ref n v

theorem isLiteralOf_denote {x e : Expr} {ρ : Input} (hx : x.isLiteral = true)
    (h : Agrees (· = ρ) x e) : IsLiteralOf x (e.denote ρ) := by
  have hden : x.denote ρ = e.denote ρ := by
    rw [denote, denote, h.isBoolean, h.truth rfl, h.bv rfl, h.bits]
  rw [← hden]
  cases x with
  | bool ref b => exact ⟨ref, by simp [truth_bool]⟩
  | constant ref n v => exact ⟨ref, by simp [bits]⟩
  | _ => cases hx

/-- **The evaluator agrees with the solver term.** On a well-sorted expression whose
reads are inside the input and whose divisors are not zero on it, `evaluate` gives
a constant of the width of the expression, or a truth value for a boolean one, and
that is what the term denotes. -/
theorem evaluate_eq_toZ3Expr (σ : Session) (w : World) {e : Expr} (h : e.WellSorted)
    (hr : ∀ i ∈ e.getDeps, i < σ.inputs.length) (hd : e.DivisorsNonzero σ.input) :
    ∃ x w' v, Runs (body σ) (e.evaluate σ) w x w' ∧
      e.toZ3Expr.eval (symbols σ.input) = some v ∧ IsLiteralOf x v ∧
      x.isBoolean = e.isBoolean ∧ x.bits = e.bits := by
  obtain ⟨x, w', hrun, -, hx, ha⟩ := evaluate_builds h hr hd w trivial fun _ _ => trivial
  exact ⟨x, w', e.denote σ.input, hrun, toZ3Expr_eval h _, isLiteralOf_denote hx ha,
    ha.isBoolean, ha.bits⟩

/-- `7 < (Read 1) / 3` on zero bytes. -/
theorem evaluate_quotient :
    let e : Expr := .compare 3 .ult (.constant 2 8 7) (.binary 1 .udiv (.read 1) (.constant 0 8 3))
    ∃ x w' v, Runs (body quietSession) (e.evaluate quietSession) (freshWorld 4) x w' ∧
      e.toZ3Expr.eval (symbols quietSession.input) = some v ∧ IsLiteralOf x v ∧
      x.isBoolean = e.isBoolean ∧ x.bits = e.bits :=
  evaluate_eq_toZ3Expr quietSession (freshWorld 4) (by decide) (by decide)
    (by simp [DivisorsNonzero, value])

end Evaluate

end Qsym
