import Qsym.Builder.Spec

/-!
# Qsym.Builder.Lower

The layers below the rewriting are right: `BaseExprBuilder` allocates, the cache
hands out shallowly equal nodes, and constant folding computes with `APInt`.
-/

namespace Qsym

open Procedure Qsym.Expr

variable {σ : Session} {stops : Prop} {ok : MethodCall → Prop} {E : Input → Prop}
variable {folds : Bool} {next : ExprBuilder}

/-! ### Allocation and the cache -/

theorem base_completes (σ : Session) (E : Input → Prop) (next : ExprBuilder) :
    CompletesOn σ stops ok E false (.base :: next) := by
  intro c hc _
  refine completes_create fun _ => ?_
  have hmk : Completes σ stops ok (.makeShared c) (c.Meets E false) :=
    completes_makeShared (Call.asserted_of_wellSorted hc) (Call.meets_node hc)
  cases c with
  | read off => exact Terminates.ret (Call.meets_node hc 0)
  | extract e i b =>
      simp only [body, BaseExprBuilder.body]
      split
      next hb =>
          obtain ⟨hw, hbool, hpos, hle⟩ := hc
          obtain rfl : i = 0 := by omega
          subst hb
          refine Terminates.ret
            ⟨⟨hw, rfl, hbool, fun ρ _ => ?_⟩, nofun, fun _ => Nat.le_refl _, nofun⟩
          exact (Bits.slice_zero_of_lt (hw.value_lt ρ)).symm
      next => exact hmk
  | _ => exact hmk

theorem Call.Meets.of_equalShallowly {c : Call} {e e' : Expr} (h : c.Meets E folds e)
    (hl : c.isLeaf = false) (he : e'.equalShallowly e = true) : c.Meets E folds e' := by
  obtain ⟨ha, hw, hk⟩ := agrees_of_equalShallowly he h.agrees.wellSorted E
  exact ⟨ha.trans h.agrees, fun h => absurd h (by simp [hl]), fun hm => hw ▸ h.weight hm,
    fun hf hm hc => hk ▸ h.constant hf hm hc⟩

theorem cache_completes (h : CompletesOn σ stops ok E folds next) :
    CompletesOn σ stops ok E folds (.cache :: next) := by
  intro c hc ht
  refine completes_create fun _ => ?_
  have hnext := h _ hc ht
  have hfind : c.isLeaf = false →
      Completes σ stops ok (next.create c >>= CacheExprBuilder.findOrInsert σ)
        (c.Meets E folds) := by
    intro hl
    refine Terminates.bind hnext fun e he => completes_ask fun w => ?_
    cases hf : w.cache.find (σ.expired w.tick) e with
    | none => exact Terminates.get fun w => Terminates.set (Terminates.ret he)
    | some x =>
        have := List.find?_some hf
        simp only [Bool.and_eq_true] at this
        exact Terminates.ret (he.of_equalShallowly hl this.2)
  cases c with
  | bool | constant | read => exact hnext
  | _ => exact hfind rfl

/-! ### Constant folding -/

theorem BinaryKind.fold_eq_some {n : Nat} {k : BinaryKind} {v w : BitVec n}
    (hk : k.isLogical = false) (hw : k.isDivision = true → w ≠ 0) :
    k.fold v w = some (k.apply v w) := by
  cases k with
  | udiv =>
      have h0 : w ≠ 0#n := hw rfl
      simp [fold, apply, BitVec.smtUDiv_eq, h0]
  | urem | srem =>
      have h0 : w ≠ 0#n := hw rfl
      simp [fold, apply, h0]
  | sdiv =>
      have h0 : w ≠ 0#n := hw rfl
      have hneg : -w ≠ 0#n := by simpa using h0
      simp only [fold, apply, BitVec.sdiv_eq, BitVec.smtSDiv_eq, BitVec.smtUDiv_eq,
        BitVec.ofNat_eq_ofNat, if_neg h0, if_neg hneg]
      rfl
  | lor | land => cases hk
  | _ => rfl

theorem CompareKind.fold_eq_holds {n : Nat} (k : CompareKind) (v w : BitVec n) :
    k.fold v w = k.holds v w := by
  cases k <;> rfl

/-- A constant of the right value answers a call. -/
theorem Call.meets_constant {c : Call} {n : Nat} {v : BitVec n} (hc : c.plain.IsBV n)
    (hl : c.isLeaf = false) (hv : ∀ ρ, E ρ → c.plain.value ρ = v.toNat) (ref : Nat) :
    c.Meets E folds (.constant ref n v) :=
  ⟨.of_isBV (isBV_constant hc.pos ref v) hc fun ρ hρ => (hv ρ hρ).symm,
    fun h => absurd h (by simp [hl]), fun _ => by simp, fun _ _ _ => rfl⟩

/-- A literal truth value answers a call. -/
theorem Call.meets_bool {c : Call} {b : Bool} (hc : c.plain.IsBool) (hl : c.isLeaf = false)
    (hm : c.isMeasured = false) (hv : ∀ ρ, E ρ → c.plain.truth ρ = b) (ref : Nat) :
    c.Meets E folds (.bool ref b) :=
  ⟨.of_isBool ⟨trivial, rfl⟩ hc fun ρ hρ => (truth_bool ref b).trans (hv ρ hρ).symm,
    fun h => absurd h (by simp [hl]), fun h => absurd h (by simp [hm]),
    fun _ h => absurd h (by simp [hm])⟩

/-- Where folding does not apply, the contract of `next` is the contract. -/
theorem Call.Meets.up {c : Call} {e : Expr} (h : c.Meets E folds e)
    (hc : c.isMeasured = true → c.onConstants = false) : c.Meets E true e :=
  { h with constant := fun _ hm ho => absurd ho (by simp [hc hm]) }

/-- Constant folding stops at a division by zero. -/
theorem constantFolding_of_traps (next : ExprBuilder) {c : Call} (h : c.traps = true) :
    body σ ⟨.constantFolding :: next, c⟩ = .stop := by
  cases c with
  | binary k l r =>
      simp only [Call.traps, Bool.and_eq_true, isConstant_iff, isZero_iff] at h
      obtain ⟨⟨hk, ref, n, v, rfl⟩, ref', m, rfl⟩ := h
      have hfold (u : BitVec n) (h : u = 0) : k.fold v u = none := by
        subst h
        cases k <;> first | rfl | cases hk
      have harith : body σ
          ⟨.constantFolding :: next, .binary k (.constant ref n v) (.constant ref' m 0)⟩ =
          ConstantFoldingExprBuilder.createArith (.constantFolding :: next) next k
            (.constant ref n v) (.constant ref' m 0) := by
        cases k <;> first | rfl | cases hk
      rw [harith, ConstantFoldingExprBuilder.createArith]
      split
      next hm =>
          subst hm
          simp only [BitVec.cast_eq, hfold 0 rfl]
      next => rfl
  | _ => cases h

section ConstantFolding

variable (h : CompletesOn σ stops ok E folds next)

include h in
theorem constantFolding_constant {n : Nat} {v : BitVec n} {c : Call} (hc : c.plain.IsBV n)
    (hl : c.isLeaf = false) (hv : ∀ ρ, E ρ → c.plain.value ρ = v.toNat) :
    Completes σ stops ok (ExprBuilder.create (.constantFolding :: next) (.constant n v))
      (c.Meets E true) := by
  refine completes_create fun _ => (h.constant hc.pos v).mono ?_
  rintro _ ⟨ref, rfl⟩
  exact Call.meets_constant hc hl hv ref

include h in
theorem constantFolding_bool {b : Bool} {c : Call} (hc : c.plain.IsBool)
    (hl : c.isLeaf = false) (hm : c.isMeasured = false)
    (hv : ∀ ρ, E ρ → c.plain.truth ρ = b) :
    Completes σ stops ok (ExprBuilder.createBool (.constantFolding :: next) b)
      (c.Meets E true) := by
  refine completes_create fun _ => (h.bool b).mono ?_
  rintro _ ⟨ref, rfl⟩
  exact Call.meets_bool hc hl hm hv ref

namespace ConstantFoldingExprBuilder

variable {this : ExprBuilder} {l r e : Expr}

theorem createConcat_next (h : (Call.concat l r).onConstants = false) :
    createConcat this next l r = next.createConcat l r := by
  cases l with
  | constant => cases r with
      | constant => cases h
      | _ => rfl
  | _ => rfl

theorem createExtract_next (h : e.isConstant = false) {i b : Nat} :
    createExtract this next e i b = next.createExtract e i b := by
  cases e with
  | constant => cases h
  | _ => rfl

theorem createExt_next (h : e.isConstant = false) {k : ExtKind} {b : Nat} :
    createExt this next k e b = next.create (.ext k e b) := by
  cases e with
  | constant => cases h
  | _ => rfl

theorem createArith_next {k : BinaryKind} (h : (Call.binary k l r).onConstants = false) :
    createArith this next k l r = next.create (.binary k l r) := by
  cases l with
  | constant => cases r with
      | constant => cases h
      | _ => rfl
  | _ => rfl

end ConstantFoldingExprBuilder

include h in
theorem constantFolding_unary {k : UnaryKind} {e : Expr}
    (hc : (Call.unary k e).plain.WellSorted) :
    Completes σ stops ok
      (ConstantFoldingExprBuilder.createUnary (.constantFolding :: next) next k e)
      ((Call.unary k e).Meets E true) := by
  have hnext := h _ hc rfl
  have hvalue : ∀ (ref n : Nat) (v : BitVec n) (ρ : Input),
      (Call.unary k (.constant ref n v)).plain.value ρ = (k.apply v).toNat := by
    intro ref n v ρ
    have hb : (constant ref n v).bits = n := rfl
    exact (value_unary ρ 0 k hb).trans (by rw [bv_constant])
  cases k with
  | neg | not =>
      cases e with
      | constant ref n v =>
          exact constantFolding_constant h ⟨hc, rfl, rfl⟩ rfl fun ρ _ => hvalue ref n v ρ
      | _ => exact hnext.mono fun _ he => he.up fun _ => rfl
  | lnot =>
      cases e with
      | bool ref b =>
          refine constantFolding_bool h ⟨hc, rfl⟩ rfl rfl fun ρ _ => ?_
          exact (truth_lnot (isBool_bool ref b) 0).trans (by rw [truth_bool])
      | _ => exact hnext.mono fun _ he => he.up nofun

include h in
theorem constantFolding_logical {k : BinaryKind} {l r : Expr} (hk : k.isLogical = true)
    (hc : (Call.binary k l r).plain.WellSorted) :
    Completes σ stops ok (body σ ⟨.constantFolding :: next, .binary k l r⟩)
      ((Call.binary k l r).Meets E true) := by
  have hm : (Call.binary k l r).isMeasured = false := by cases k <;> first | rfl | cases hk
  have ht : (Call.binary k l r).traps = false := by cases k <;> first | rfl | cases hk
  have hnext := (h _ hc ht).mono
    fun _ he => he.up fun hm' => absurd hm' (by simp [hm])
  obtain ⟨hl, hr⟩ := (wellSorted_logical_iff hk).1 hc
  cases k with
  | land =>
      cases l with
      | bool ref b => cases r with
          | bool ref' b' =>
              refine constantFolding_bool h (isBool_binary rfl hl hr 0) rfl rfl fun ρ _ => ?_
              exact (truth_land hl hr 0).trans (by rw [truth_bool, truth_bool])
          | _ => exact hnext
      | _ => exact hnext
  | lor =>
      cases l with
      | bool ref b => cases r with
          | bool ref' b' =>
              refine constantFolding_bool h (isBool_binary rfl hl hr 0) rfl rfl fun ρ _ => ?_
              exact (truth_lor hl hr 0).trans (by rw [truth_bool, truth_bool])
          | _ => exact hnext
      | _ => exact hnext
  | _ => cases hk

include h in
theorem constantFolding_arith {k : BinaryKind} {l r : Expr} (hk : k.isLogical = false)
    (hc : (Call.binary k l r).plain.WellSorted) (ht : (Call.binary k l r).traps = false) :
    Completes σ stops ok
      (ConstantFoldingExprBuilder.createArith (.constantFolding :: next) next k l r)
      ((Call.binary k l r).Meets E true) := by
  cases hlr : (Call.binary k l r).onConstants with
  | false =>
      rw [ConstantFoldingExprBuilder.createArith_next hlr]
      exact (h.completes hc ht).mono fun _ he => he.up fun _ => hlr
  | true =>
      rw [Call.onConstants, Bool.and_eq_true, isConstant_iff, isConstant_iff] at hlr
      obtain ⟨⟨ref, n, v, rfl⟩, ref', m, w, rfl⟩ := hlr
      obtain rfl : n = m := hc.2.2.1
      have hw : k.isDivision = true → w ≠ 0 := fun hd h0 => by
        simp [Call.traps, isConstant, isZero, hd, h0] at ht
      simp only [ConstantFoldingExprBuilder.createArith, dif_pos, BitVec.cast_eq,
        BinaryKind.fold_eq_some hk hw]
      have hl : (constant ref n v).IsBV n := isBV_constant hc.1 ref v
      have hr : (constant ref' n w).IsBV n := isBV_constant hc.1 ref' w
      refine constantFolding_constant h (isBV_binary hk hl hr 0) rfl fun ρ _ => ?_
      exact (value_binary ρ 0 k hl.bits).trans (by rw [bv_constant, bv_constant])

include h in
theorem constantFolding_compare {k : CompareKind} {l r : Expr}
    (hc : (Call.compare k l r).plain.WellSorted) :
    Completes σ stops ok (body σ ⟨.constantFolding :: next, .compare k l r⟩)
      ((Call.compare k l r).Meets E true) := by
  have hnext := (h _ hc rfl).mono fun _ he => he.up nofun
  have hbool : (Call.compare k l r).plain.IsBool := ⟨hc, rfl⟩
  cases l with
  | constant ref n v => cases r with
      | constant ref' m w =>
          obtain rfl : n = m := hc.2.2.1
          simp only [body, ConstantFoldingExprBuilder.body,
            ConstantFoldingExprBuilder.createCompare, dif_pos, BitVec.cast_eq]
          refine constantFolding_bool h hbool rfl rfl fun ρ _ => ?_
          rw [CompareKind.fold_eq_holds]
          have hb : (constant ref n v).bits = n := rfl
          exact (truth_compare hb 0).trans (by rw [bv_constant, bv_constant])
      | _ => exact hnext
  | bool ref b => cases r with
      | bool ref' b' =>
          have hv : ∀ ρ, (Call.compare k (.bool ref b) (.bool ref' b')).plain.truth ρ
              = k.holds (BitVec.ofBool b) (BitVec.ofBool b') := fun ρ => by
            refine (truth_compare (isBool_bool ref b).bits 0).trans ?_
            rw [(isBool_bool ref b).bv_eq, (isBool_bool ref' b').bv_eq, truth_bool, truth_bool]
          cases k with
          | equal | distinct =>
              refine constantFolding_bool h hbool rfl rfl fun ρ _ => (hv ρ).trans ?_
              cases b <;> cases b' <;> rfl
          | _ => exact hnext
      | _ => exact hnext
  | _ => exact hnext

end ConstantFolding

theorem constantFolding_completes (h : CompletesOn σ stops ok E folds next) :
    CompletesOn σ stops ok E true (.constantFolding :: next) := by
  intro c hc ht
  refine completes_create fun _ => ?_
  have hnext := h _ hc ht
  cases c with
  | bool | read => exact hnext.mono fun _ he => he.up (by rintro ⟨⟩)
  | constant => exact hnext.mono fun _ he => he.up fun _ => rfl
  | concat l r =>
      simp only [body, ConstantFoldingExprBuilder.body]
      cases hk : (Call.concat l r).onConstants with
      | false =>
          rw [ConstantFoldingExprBuilder.createConcat_next hk]
          exact hnext.mono fun _ he => he.up fun _ => hk
      | true =>
          rw [Call.onConstants, Bool.and_eq_true, isConstant_iff, isConstant_iff] at hk
          obtain ⟨⟨_, n, v, rfl⟩, _, m, w, rfl⟩ := hk
          refine constantFolding_constant h
            (isBV_concat (isBV_constant hc.1 _ v) (isBV_constant hc.2.1 _ w) 0) rfl fun ρ _ => ?_
          exact (Bits.toNat_setWidth_shiftLeft_or v w).symm
  | extract e i b =>
      simp only [body, ConstantFoldingExprBuilder.body]
      cases hk : e.isConstant with
      | false =>
          rw [ConstantFoldingExprBuilder.createExtract_next hk]
          exact hnext.mono fun _ he => he.up fun _ => hk
      | true =>
          obtain ⟨_, n, v, rfl⟩ := isConstant_iff.1 hk
          refine constantFolding_constant h ⟨hc, rfl, rfl⟩ rfl fun ρ _ => ?_
          simp [Call.node, value, Bits.slice, Nat.shiftRight_eq_div_pow]
  | ext k e b =>
      simp only [body, ConstantFoldingExprBuilder.body]
      cases hk : e.isConstant with
      | false =>
          rw [ConstantFoldingExprBuilder.createExt_next hk]
          exact hnext.mono fun _ he => he.up (by rintro ⟨⟩)
      | true =>
          obtain ⟨_, n, v, rfl⟩ := isConstant_iff.1 hk
          refine constantFolding_constant h ⟨hc, rfl, rfl⟩ rfl fun ρ _ => ?_
          cases k <;> simp [Call.node, value, ExtKind.apply, bits]
  | unary k e =>
      simp only [body, ConstantFoldingExprBuilder.body]
      exact constantFolding_unary h hc
  | binary k l r =>
      cases hk : k.isLogical with
      | true => exact constantFolding_logical h hk hc
      | false =>
          have hb : body σ ⟨.constantFolding :: next, .binary k l r⟩ =
              ConstantFoldingExprBuilder.createArith (.constantFolding :: next) next k l r := by
            cases k <;> first | rfl | cases hk
          rw [hb]
          exact constantFolding_arith h hk hc ht
  | compare k l r => exact constantFolding_compare h hc
  | ite c t f =>
      simp only [body, ConstantFoldingExprBuilder.body, ConstantFoldingExprBuilder.createIte]
      cases c with
      | bool ref b =>
          obtain ⟨-, hwt, hwf, -, hb, hn⟩ := hc
          cases b with
          | true =>
              exact Terminates.ret
                ⟨⟨hwt, rfl, rfl, fun _ _ => rfl⟩, by rintro ⟨⟩, by rintro ⟨⟩, by rintro _ ⟨⟩⟩
          | false =>
              exact Terminates.ret ⟨⟨hwf, hn.symm, hb.symm, fun _ _ => rfl⟩, by rintro ⟨⟩,
                by rintro ⟨⟩, by rintro _ ⟨⟩⟩
      | _ => exact hnext.mono fun _ he => he.up (by rintro ⟨⟩)

end Qsym
