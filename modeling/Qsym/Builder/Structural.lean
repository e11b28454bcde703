import Qsym.Builder.Exclusive

/-!
# Qsym.Builder.Structural

The methods of `SymbolicExprBuilder` that never reach a division: concatenation,
the logical and comparison methods, `Ite`, `And` and `Xor`. They recurse into
their operands, so the proofs are inductions on an operand, and they are right
without any condition on the calls reached.
-/

namespace Qsym

open Procedure Qsym.Expr Bits

namespace SymbolicExprBuilder

variable {σ : Session} {stops : Prop} {ok : MethodCall → Prop} {E : Input → Prop}
variable {next : ExprBuilder} {e l r : Expr}
variable (h : CompletesOn σ stops ok E true next)

/-! ### `createConcat` -/

/-- A constant in front of the constants at the head of `r`. -/
theorem concat_const_meets (h : CompletesOn σ stops ok E true next) {m n : Nat} (hl : l.IsBV m)
    (hr : r.IsBV n) (hk : l.isConstant = true) :
    Completes σ stops ok (ExprBuilder.createConcat (.symbolic :: next) l r)
      ((Call.concat l r).Meets E true) := by
  induction r generalizing l m n with
  | concat ref x y ihx ihy =>
      have hnext := h (.concat l (.concat ref x y)) (isBV_concat hl hr 0).wellSorted rfl
      obtain ⟨⟨hxw, hyw, hxb, hyb⟩, -, rfl⟩ := id hr
      have hx : x.IsBV x.bits := ⟨hxw, hxb, rfl⟩
      have hy : y.IsBV y.bits := ⟨hyw, hyb, rfl⟩
      obtain ⟨ref', m', v, rfl⟩ := isConstant_iff.1 hk
      refine completes_create fun _ => ?_
      show Completes σ stops ok
        (createConcat (.symbolic :: next) next (constant ref' m' v) (concat ref x y)) _
      rw [createConcat]
      split
      next hkx =>
          refine Terminates.bind (ihx hl hx hk) fun lx hlx => ?_
          rw [Call.meets_concat_iff hl hx] at hlx
          obtain ⟨hlx, hv, hw, hkl⟩ := hlx
          refine (ihy hlx hy (hkl hk hkx)).mono fun z hz => ?_
          rw [Call.meets_concat_iff hlx hy, Nat.add_assoc] at hz
          obtain ⟨hz, hvz, hwz, -⟩ := hz
          refine (Call.meets_concat_iff hl hr).2 ⟨hz, fun ρ hρ => ?_, ?_, nofun⟩
          · rw [hvz ρ hρ, hv ρ hρ, append_assoc]
            rfl
          · rw [weight_concat]
            omega
      next => exact hnext
  | _ =>
      have hnext := h (.concat l _) (isBV_concat hl hr 0).wellSorted rfl
      obtain ⟨_, _, _, rfl⟩ := isConstant_iff.1 hk
      exact completes_create fun _ => hnext

include h in
theorem concat_meets {m n : Nat} (hl : l.IsBV m) (hr : r.IsBV n) :
    Completes σ stops ok (ExprBuilder.createConcat (.symbolic :: next) l r)
      ((Call.concat l r).Meets E true) := by
  induction l generalizing r m n with
  | concat ref x y ihx ihy =>
      obtain ⟨⟨hxw, hyw, hxb, hyb⟩, -, rfl⟩ := id hl
      have hx : x.IsBV x.bits := ⟨hxw, hxb, rfl⟩
      have hy : y.IsBV y.bits := ⟨hyw, hyb, rfl⟩
      refine completes_create fun _ => ?_
      show Completes σ stops ok (createConcat (.symbolic :: next) next (concat ref x y) r) _
      rw [createConcat]
      · refine Terminates.bind (ihy hy hr) fun yr hyr => ?_
        rw [Call.meets_concat_iff hy hr] at hyr
        obtain ⟨hyr, hv, hw, -⟩ := hyr
        refine (ihx hx hyr).mono fun z hz => ?_
        rw [Call.meets_concat_iff hx hyr, ← Nat.add_assoc] at hz
        obtain ⟨hz, hvz, hwz, -⟩ := hz
        refine (Call.meets_concat_iff hl hr).2 ⟨hz, fun ρ hρ => ?_, ?_, nofun⟩
        · rw [hvz ρ hρ, hv ρ hρ, value, append_assoc]
        · rw [weight_concat]
          omega
  | constant => exact concat_const_meets h hl hr rfl
  | _ =>
      have hnext := h (.concat _ r) (isBV_concat hl hr 0).wellSorted rfl
      exact completes_create fun _ => hnext

/-! ### Truth values -/

include h in
theorem bool_builds (b : Bool) :
    Completes σ stops ok (ExprBuilder.createBool (.symbolic :: next) b)
      (fun x => ∃ ref, x = .bool ref b) :=
  completes_create fun _ => h.bool b

/-- An answer to a logical call or a comparison only has to have the right truth. -/
theorem meets_of_truth {c : Call} (hl : c.isLeaf = false) (hm : c.isMeasured = false)
    (hc : c.plain.IsBool) {x : Expr} (hx : x.IsBool)
    (hv : ∀ ρ, E ρ → x.truth ρ = c.plain.truth ρ) : c.Meets E true x :=
  Call.meets_of_agrees hl hm (.of_isBool hx hc hv) true

/-- An answer to a bitwise call only has to have the right value. -/
theorem meets_of_bv {c : Call} (hl : c.isLeaf = false) (hm : c.isMeasured = false) {n : Nat}
    (hc : c.plain.IsBV n) {x : Expr} (hx : x.IsBV n)
    (hv : ∀ ρ, E ρ → x.bv ρ n = c.plain.bv ρ n) : c.Meets E true x :=
  Call.meets_of_agrees hl hm (.of_bv hx hc hv) true

include h in
theorem lnot_meets (he : e.IsBool) :
    Completes σ stops ok (ExprBuilder.createLNot (.symbolic :: next) e)
      ((Call.unary .lnot e).Meets E true) := by
  have hc : (Call.unary .lnot e).plain.IsBool := isBool_lnot he 0
  have hnext := h (.unary .lnot e) hc.wellSorted rfl
  have hv : ∀ ρ, (Call.unary .lnot e).plain.truth ρ = !e.truth ρ := fun ρ => truth_lnot he 0
  refine completes_create fun _ => ?_
  cases e with
  | bool ref b =>
      refine (bool_builds h (!b)).mono ?_
      rintro _ ⟨ref', rfl⟩
      refine meets_of_truth rfl rfl hc (isBool_bool ref' _) fun ρ _ => ?_
      rw [hv, truth_bool, truth_bool]
  | unary ref k x =>
      cases k with
      | lnot =>
          have hx : x.IsBool := ⟨he.1.1, he.1.2⟩
          refine Terminates.ret (meets_of_truth rfl rfl hc hx fun ρ _ => ?_)
          rw [hv, truth_lnot hx, Bool.not_not]
      | _ => exact hnext
  | _ => exact hnext

include h in
theorem lor_meets (hl : l.IsBool) (hr : r.IsBool) :
    Completes σ stops ok (ExprBuilder.createLOr (.symbolic :: next) l r)
      ((Call.binary .lor l r).Meets E true) := by
  have hc : (Call.binary .lor l r).plain.IsBool := isBool_binary rfl hl hr 0
  have hnext := h (.binary .lor l r) hc.wellSorted rfl
  have hv : ∀ ρ, (Call.binary .lor l r).plain.truth ρ = (l.truth ρ || r.truth ρ) := fun ρ =>
    truth_lor hl hr 0
  refine completes_create fun _ => ?_
  show Completes σ stops ok (createLOr (.symbolic :: next) next l r) _
  unfold createLOr
  split
  next ref b _ =>
      cases b with
      | true =>
          refine (bool_builds h true).mono ?_
          rintro _ ⟨ref', rfl⟩
          refine meets_of_truth rfl rfl hc (isBool_bool ref' _) fun ρ _ => ?_
          rw [hv, truth_bool, truth_bool, Bool.true_or]
      | false =>
          refine Terminates.ret (meets_of_truth rfl rfl hc hr fun ρ _ => ?_)
          rw [hv, truth_bool, Bool.false_or]
  next ref b _ _ =>
      cases b with
      | true =>
          refine (bool_builds h true).mono ?_
          rintro _ ⟨ref', rfl⟩
          refine meets_of_truth rfl rfl hc (isBool_bool ref' _) fun ρ _ => ?_
          rw [hv, truth_bool, truth_bool, Bool.or_true]
      | false =>
          refine Terminates.ret (meets_of_truth rfl rfl hc hl fun ρ _ => ?_)
          rw [hv, truth_bool, Bool.or_false]
  next => exact hnext

include h in
theorem land_meets (hl : l.IsBool) (hr : r.IsBool) :
    Completes σ stops ok (ExprBuilder.createLAnd (.symbolic :: next) l r)
      ((Call.binary .land l r).Meets E true) := by
  have hc : (Call.binary .land l r).plain.IsBool := isBool_binary rfl hl hr 0
  have hnext := h (.binary .land l r) hc.wellSorted rfl
  have hv : ∀ ρ, (Call.binary .land l r).plain.truth ρ = (l.truth ρ && r.truth ρ) := fun ρ =>
    truth_land hl hr 0
  refine completes_create fun _ => ?_
  show Completes σ stops ok (createLAnd (.symbolic :: next) next l r) _
  unfold createLAnd
  split
  next ref b _ =>
      cases b with
      | false =>
          refine (bool_builds h false).mono ?_
          rintro _ ⟨ref', rfl⟩
          refine meets_of_truth rfl rfl hc (isBool_bool ref' _) fun ρ _ => ?_
          rw [hv, truth_bool, truth_bool, Bool.false_and]
      | true =>
          refine Terminates.ret (meets_of_truth rfl rfl hc hr fun ρ _ => ?_)
          rw [hv, truth_bool, Bool.true_and]
  next ref b _ _ =>
      cases b with
      | false =>
          refine (bool_builds h false).mono ?_
          rintro _ ⟨ref', rfl⟩
          refine meets_of_truth rfl rfl hc (isBool_bool ref' _) fun ρ _ => ?_
          rw [hv, truth_bool, truth_bool, Bool.and_false]
      | true =>
          refine Terminates.ret (meets_of_truth rfl rfl hc hl fun ρ _ => ?_)
          rw [hv, truth_bool, Bool.and_true]
  next => exact hnext

include h in
theorem equal_meets (hc : (Call.compare .equal l r).plain.WellSorted) :
    Completes σ stops ok (ExprBuilder.createEqual (.symbolic :: next) l r)
      ((Call.compare .equal l r).Meets E true) := by
  refine completes_create fun _ => ?_
  show Completes σ stops ok (createEqual (.symbolic :: next) next l r) _
  unfold createEqual
  split
  next heq =>
      subst heq
      refine (bool_builds h true).mono ?_
      rintro _ ⟨ref', rfl⟩
      refine meets_of_truth rfl rfl ⟨hc, rfl⟩ (isBool_bool ref' _) fun ρ _ => ?_
      have hv : (Call.compare .equal l l).plain.truth ρ = (l.bv ρ l.bits == l.bv ρ l.bits) :=
        truth_compare rfl 0
      rw [truth_bool]
      exact (hv.trans (beq_self_eq_true _)).symm
  next => exact h _ hc rfl

include h in
theorem distinct_meets (hc : (Call.compare .distinct l r).plain.WellSorted) :
    Completes σ stops ok (ExprBuilder.create (.symbolic :: next) (.compare .distinct l r))
      ((Call.compare .distinct l r).Meets E true) := by
  have he : (Call.compare .equal l r).plain.WellSorted := hc
  refine completes_create fun _ => ?_
  refine Terminates.bind (equal_meets h he) fun x hx => ?_
  have hxb : x.IsBool := hx.agrees.isBool ⟨he, rfl⟩
  refine (lnot_meets h hxb).mono fun y hy => ?_
  refine meets_of_truth rfl rfl ⟨hc, rfl⟩ (hy.agrees.isBool (isBool_lnot hxb 0)) fun ρ hρ => ?_
  refine (hy.agrees.truth hρ).trans ((truth_lnot hxb 0).trans ?_)
  have hv : ∀ k, (Expr.compare 0 k l r).truth ρ = k.holds (l.bv ρ l.bits) (r.bv ρ l.bits) :=
    fun k => truth_compare rfl 0
  rw [hx.agrees.truth hρ]
  exact (congrArg _ (hv .equal)).trans (hv .distinct).symm

include h in
theorem ite_meets {c t f : Expr} (hc : (Call.ite c t f).plain.WellSorted) :
    Completes σ stops ok (ExprBuilder.createIte (.symbolic :: next) c t f)
      ((Call.ite c t f).Meets E true) := by
  induction c generalizing t f with
  | bool ref b =>
      obtain ⟨-, ht, hf, -, hb, hn⟩ := hc
      refine completes_create fun _ => ?_
      cases b with
      | true => exact Terminates.ret ⟨⟨ht, rfl, rfl, fun _ _ => rfl⟩, nofun, nofun, nofun⟩
      | false => exact Terminates.ret ⟨⟨hf, hn.symm, hb.symm, fun _ _ => rfl⟩, nofun, nofun, nofun⟩
  | unary ref k x ih =>
      have hnext := h _ hc rfl
      obtain ⟨hcw, ht, hf, hcb, hb, hn⟩ := hc
      cases k with
      | lnot =>
          have hx : x.IsBool := ⟨hcw.1, hcw.2⟩
          refine completes_create fun _ => (ih ⟨hx.1, hf, ht, hx.2, hb.symm, hn.symm⟩).mono ?_
          intro y hy
          have hxft : Agrees E (Call.ite x f t).plain (Call.ite (unary ref .lnot x) t f).plain :=
            ⟨⟨hx.1, hf, ht, hx.2, hb.symm, hn.symm⟩, hn.symm, hb.symm, fun ρ _ => ?_⟩
          · exact Call.meets_of_agrees rfl rfl (hy.agrees.trans hxft) true
          refine (value_ite 0 x f t).trans (Eq.trans ?_ (value_ite 0 _ t f).symm)
          rw [truth_lnot hx]
          cases x.truth ρ <;> rfl
      | _ => exact completes_create fun _ => hnext
  | _ => exact completes_create fun _ => h _ hc rfl

/-! ### `createAnd` and `createXor` -/

/-- Concatenations of the same shape combine part by part. -/
theorem agrees_bitwise_concat {k : BinaryKind} (hk : k.isBitwise = true) {m n : Nat}
    {x y v w a b z : Expr} (hx : x.IsBV m) (hy : y.IsBV n) (hw : w.IsBV m) (hv : v.IsBV n)
    (ha : Agrees E a (binary 0 k x w)) (hb : Agrees E b (binary 0 k y v))
    (hz : (Call.concat a b).Meets E true z) (ref ref' : Nat) :
    Agrees E z (binary 0 k (concat ref x y) (concat ref' w v)) := by
  have hlog := isLogical_of_isBitwise hk
  have habv := ha.isBV (isBV_binary hlog hx hw 0)
  have hbbv := hb.isBV (isBV_binary hlog hy hv 0)
  have hl := isBV_concat hx hy ref
  have hr := isBV_concat hw hv ref'
  rw [Call.meets_concat_iff habv hbbv] at hz
  refine .of_isBV hz.1 (isBV_binary hlog hl hr 0) fun ρ hρ => ?_
  rw [hz.2.1 ρ hρ, ha.value ρ hρ, hb.value ρ hρ, value_bitwise_parts hk hl hr,
    value_bitwise hk hx hw, value_bitwise hk hy hv, slice_concat_left hx hy,
    slice_concat_left hw hv, slice_concat_right hy, slice_concat_right hv]

theorem and_self_meets {n : Nat} (hl : l.IsBV n) : (Call.binary .and l l).Meets E true l :=
  meets_of_bv rfl rfl (isBV_binary rfl hl hl 0) hl fun ρ _ =>
    BitVec.and_self.symm.trans (bv_binary ρ 0 .and hl.bits).symm

include h in
theorem and_meets {n : Nat} (hl : l.IsBV n) (hr : r.IsBV n) :
    Completes σ stops ok (ExprBuilder.createAnd (.symbolic :: next) l r)
      ((Call.binary .and l r).Meets E true) := by
  induction l generalizing r n with
  | concat ref x y ihx ihy =>
      have hp := isBV_binary (k := .and) rfl hl hr 0
      have hnext := h (.binary .and (.concat ref x y) r) hp.wellSorted rfl
      refine completes_create fun _ => ?_
      show Completes σ stops ok (createAnd (.symbolic :: next) next (concat ref x y) r) _
      unfold createAnd createAndNonConst
      split
      next => exact hnext
      split
      next => exact hnext
      split
      next heq =>
          subst heq
          exact Terminates.ret (and_self_meets hl)
      cases r with
      | concat ref' w v =>
          simp only
          split
          next hxw =>
              obtain ⟨⟨hxs, hys, hxb, hyb⟩, -, hn⟩ := id hl
              obtain ⟨⟨hws, hvs, hwb, hvb⟩, -, hn'⟩ := id hr
              have hx : x.IsBV x.bits := ⟨hxs, hxb, rfl⟩
              have hy : y.IsBV y.bits := ⟨hys, hyb, rfl⟩
              have hw : w.IsBV x.bits := ⟨hws, hwb, hxw.symm⟩
              have hvy : v.bits = y.bits := by simp only [bits] at hn hn'; omega
              have hv : v.IsBV y.bits := ⟨hvs, hvb, hvy⟩
              refine Terminates.bind (ihx hx hw) fun a ha =>
                Terminates.bind (ihy hy hv) fun b hb => ?_
              have habv := ha.agrees.isBV (isBV_binary (k := .and) rfl hx hw 0)
              have hbbv := hb.agrees.isBV (isBV_binary (k := .and) rfl hy hv 0)
              refine (concat_meets h habv hbbv).mono fun z hz => ?_
              exact Call.meets_of_agrees rfl rfl (agrees_bitwise_concat rfl hx hy hw hv ha.agrees
                hb.agrees hz ref ref') true
          next => exact hnext
      | _ => exact hnext
  | _ =>
      have hp := isBV_binary (k := .and) rfl hl hr 0
      have hnext := h (.binary .and _ r) hp.wellSorted rfl
      refine completes_create fun _ => ?_
      show Completes σ stops ok (createAnd (.symbolic :: next) next _ r) _
      unfold createAnd createAndNonConst
      split
      next => exact hnext
      split
      next => exact hnext
      split
      next heq =>
          subst heq
          exact Terminates.ret (and_self_meets hl)
      exact hnext

include h in
theorem xor_meets {n : Nat} (hl : l.IsBV n) (hr : r.IsBV n) :
    Completes σ stops ok (ExprBuilder.createXor (.symbolic :: next) l r)
      ((Call.binary .xor l r).Meets E true) := by
  have hp : (Call.binary .xor l r).plain.IsBV n := isBV_binary rfl hl hr 0
  refine completes_create fun _ => ?_
  show Completes σ stops ok (createXor (.symbolic :: next) next l r) _
  unfold createXor
  split
  next heq =>
      obtain ⟨-, -, rfl⟩ := heq
      refine completes_create fun _ => (h.constant (hl.bits ▸ hl.pos) _).mono ?_
      rintro _ ⟨ref, rfl⟩
      rw [hl.bits]
      refine meets_of_bv rfl rfl hp (isBV_constant hl.pos ref _) fun ρ _ => ?_
      refine Eq.trans ?_ (bv_binary ρ 0 .xor hl.bits).symm
      rw [bv_constant]
      exact BitVec.xor_self.symm
  next => exact h _ hp.wellSorted rfl

end SymbolicExprBuilder

end Qsym
