import Qsym.Builder.Lower

/-!
# Qsym.Builder.Common

`CommonSimplifyExprBuilder` is right. Its recursion is on the expression being cut:
`createExtract` goes into its operand, `createConcat` only calls `createExtract`,
and the bitwise operations go into the right operand.
-/

namespace Qsym

open Procedure Qsym.Expr Bits

namespace CommonSimplifyExprBuilder

variable {σ : Session} {stops : Prop} {ok : MethodCall → Prop} {E : Input → Prop}
variable {next : ExprBuilder} {e l r : Expr}
variable (h : CompletesOn σ stops ok E true next)

/-! ### `createConcat` on a constant, and `createExtract` -/

theorem createConcat_of_isConstant {this : ExprBuilder} (hl : l.isConstant = true) :
    createConcat this next l r = next.createConcat l r := by
  obtain ⟨_, _, _, rfl⟩ := isConstant_iff.1 hl
  rfl

include h in
theorem extractWhole_meets {n i b : Nat} (he : e.IsBV n) (hb : 0 < b) (hi : i + b ≤ n) :
    Completes σ stops ok (createExtractWhole next e i b) ((Call.extract e i b).Meets E true) := by
  rw [createExtractWhole]
  split
  next hw =>
      obtain ⟨rfl, rfl⟩ := hw
      refine Terminates.ret ((Call.meets_extract_iff he hb hi).2 ⟨⟨he.1, he.2, rfl⟩, fun ρ _ => ?_,
        Nat.le_refl _, id⟩)
      exact (slice_zero_of_lt (he.1.value_lt ρ)).symm
  next => exact h.completes (isBV_extract he hb hi 0).wellSorted rfl

include h in
theorem extract_meets {n i b : Nat} (he : e.IsBV n) (hb : 0 < b) (hi : i + b ≤ n) :
    Completes σ stops ok (ExprBuilder.createExtract (.common :: next) e i b)
      ((Call.extract e i b).Meets E true) := by
  induction e generalizing n i b with
  | concat ref l r ihl ihr =>
      obtain ⟨⟨hlw, hrw, hlb, hrb⟩, -, rfl⟩ := id he
      have hl : l.IsBV l.bits := ⟨hlw, hlb, rfl⟩
      have hr : r.IsBV r.bits := ⟨hrw, hrb, rfl⟩
      have hn : i + b ≤ l.bits + r.bits := hi
      refine completes_create fun _ => ?_
      show Completes σ stops ok (createExtract (.common :: next) next (concat ref l r) i b) _
      rw [createExtract]
      split
      next hri =>
          refine (ihl hl hb (by omega)).mono fun x hx => ?_
          rw [Call.meets_extract_iff hl hb (by omega)] at hx
          obtain ⟨hx, hv, hw, -⟩ := hx
          refine (Call.meets_extract_iff he hb hi).2 ⟨hx, fun ρ hρ => ?_, ?_, by rintro ⟨⟩⟩
          · exact (hv ρ hρ).trans (slice_append_high (hr.value_lt ρ) _ hri b).symm
          · simpa [weightIn, Nat.sub_eq_zero_of_le hri] using hw
      split
      next hri hle =>
          refine (ihr hr hb hle).mono fun x hx => ?_
          rw [Call.meets_extract_iff hr hb hle] at hx
          obtain ⟨hx, hv, hw, -⟩ := hx
          refine (Call.meets_extract_iff he hb hi).2 ⟨hx, fun ρ hρ => ?_, ?_, by rintro ⟨⟩⟩
          · exact (hv ρ hρ).trans (slice_append_low (hr.value_lt ρ) _ hle).symm
          · rw [weightIn, show b - (r.bits - i) = 0 by omega,
              show min b (r.bits - i) = b by omega]
            omega
      split
      next hri hle hk =>
          have hel := ihl hl (i := 0) (b := b + i - r.bits) (by omega) (by omega)
          refine Terminates.bind hel fun el hel => ?_
          rw [Call.meets_extract_iff hl (by omega) (by omega)] at hel
          obtain ⟨hel, hvl, hwl, hkl⟩ := hel
          have her := ihr hr (i := i) (b := r.bits - i) (by omega) (by omega)
          refine Terminates.bind her fun er her => ?_
          rw [Call.meets_extract_iff hr (by omega) (by omega)] at her
          obtain ⟨her, hvr, hwr, hkr⟩ := her
          refine completes_create fun _ => ?_
          show Completes σ stops ok (createConcat (.common :: next) next el er) _
          rw [createConcat_of_isConstant (hkl hk)]
          refine (h.completes (c := .concat el er) (isBV_concat hel her 0).wellSorted rfl).mono
            fun x hx => ?_
          rw [Call.meets_concat_iff hel her] at hx
          obtain ⟨hx, hv, hw, -⟩ := hx
          rw [show b + i - r.bits + (r.bits - i) = b by omega] at hx
          refine (Call.meets_extract_iff he hb hi).2 ⟨hx, fun ρ hρ => ?_, ?_, by rintro ⟨⟩⟩
          · rw [hv ρ hρ, hvl ρ hρ, hvr ρ hρ, value,
              slice_append_across (hr.value_lt ρ) _ (by omega) (by omega),
              show b - (r.bits - i) = b + i - r.bits by omega]
          · rw [weightIn, show i - r.bits = 0 by omega,
              show b - (r.bits - i) = b + i - r.bits by omega,
              show min b (r.bits - i) = r.bits - i by omega]
            omega
      next => exact extractWhole_meets h he hb hi
  | ext ref k x w ih =>
      obtain ⟨⟨hxw, hxb, hle⟩, -, rfl⟩ := id he
      have hx : x.IsBV x.bits := ⟨hxw, hxb, rfl⟩
      refine completes_create fun _ => ?_
      show Completes σ stops ok (createExtract (.common :: next) next (ext ref k x w) i b) _
      rw [createExtract]
      split
      next hib =>
          refine (ih hx hb hib).mono fun y hy => ?_
          rw [Call.meets_extract_iff hx hb hib] at hy
          obtain ⟨hy, hv, hw, -⟩ := hy
          refine (Call.meets_extract_iff he hb hi).2 ⟨hy, fun ρ hρ => ?_, ?_, by rintro ⟨⟩⟩
          · rw [hv ρ hρ]
            exact (slice_ext_low hx k hle hib ρ ref).symm
          · rwa [weightIn, show min b (x.bits - i) = b by omega]
      split
      next hib hz =>
          obtain ⟨rfl, hxi⟩ := hz
          refine completes_create fun _ => (h.constant hb _).mono ?_
          rintro _ ⟨ref', rfl⟩
          refine (Call.meets_extract_iff he hb hi).2 ⟨isBV_constant hb _ _, fun ρ _ => ?_,
            by simp, by rintro ⟨⟩⟩
          rw [slice_zext_high hx hle hxi ρ ref]
          simp [value]
      next => exact extractWhole_meets h he hb hi
  | extract ref x j w ih =>
      obtain ⟨⟨hxw, hxb, h0, hle⟩, -, rfl⟩ := id he
      have hx : x.IsBV x.bits := ⟨hxw, hxb, rfl⟩
      have hi' : i + b ≤ w := hi
      refine completes_create fun _ => ?_
      show Completes σ stops ok (ExprBuilder.createExtract (.common :: next) x (j + i) b) _
      refine (ih hx hb (by omega)).mono fun y hy => ?_
      rw [Call.meets_extract_iff hx hb (by omega)] at hy
      obtain ⟨hy, hv, hw, -⟩ := hy
      refine (Call.meets_extract_iff he hb hi).2 ⟨hy, fun ρ hρ => ?_, hw, by rintro ⟨⟩⟩
      exact (hv ρ hρ).trans (slice_slice hi').symm
  | _ =>
      exact completes_create fun _ => extractWhole_meets h he hb hi

/-! ### `createConcat` -/

include h in
theorem concatExt_meets {m n : Nat} (hl : l.IsBV m) (hr : r.IsBV n) :
    Completes σ stops ok (createConcatExt (.common :: next) next l r)
      ((Call.concat l r).Meets E true) := by
  have hnext := h (.concat l r) (isBV_concat hl hr 0).wellSorted rfl
  unfold createConcatExt
  split
  next ref ref' k e w index bits =>
      split
      next hadj =>
          obtain ⟨rfl, heq⟩ := hadj
          obtain ⟨⟨⟨hew, heb, hew'⟩, -, hb, hi⟩, -, rfl⟩ := id hl
          obtain ⟨ha, hwt, -⟩ := agrees_of_equalShallowly heq hr.wellSorted E
          have he : e.IsBV n := ha.isBV hr
          have hi : n + bits ≤ w := hr.bits ▸ hi
          have hx : (ext ref' k e w).IsBV w := ⟨⟨hew, heb, hew'⟩, rfl, rfl⟩
          refine (extract_meets h hx (Nat.add_pos_left hb _) (by rw [hr.bits]; omega)).mono
            fun x hx' => ?_
          rw [hr.bits, Call.meets_extract_iff hx (by omega) (by omega)] at hx'
          obtain ⟨hx', hv, hw, -⟩ := hx'
          refine (Call.meets_concat_iff hl hr).2 ⟨hx', fun ρ hρ => ?_, ?_, nofun⟩
          · have hlow : slice ((ext ref' k e w).value ρ) 0 n = r.value ρ := by
              rw [slice_ext_low he k (by omega) (by omega), slice_zero_of_lt (he.value_lt ρ),
                ha.value ρ hρ]
            rw [hv ρ hρ, ← hlow, Nat.add_comm, ← append_slices, Nat.zero_add, ← hr.bits]
            rfl
          · have hcut := weightIn_append_le (ext ref' k e w) 0 n bits
            have hlow : (ext ref' k e w).weightIn 0 n = r.weight := by
              rw [← hwt, weightIn, weight, he.bits, Nat.sub_zero, Nat.min_self]
            rw [weight_extract, hr.bits]
            rw [Nat.zero_add, hlow, Nat.add_comm n] at hcut
            omega
      next => exact hnext
  next => exact hnext

include h in
theorem concat_meets {m n : Nat} (hl : l.IsBV m) (hr : r.IsBV n) :
    Completes σ stops ok (ExprBuilder.createConcat (.common :: next) l r)
      ((Call.concat l r).Meets E true) := by
  refine completes_create fun _ => ?_
  have hext := concatExt_meets h hl hr
  show Completes σ stops ok (createConcat (.common :: next) next l r) _
  unfold createConcat
  split
  next ref e index bits ref' e' index' bits' _ =>
      split
      next hadj =>
          obtain ⟨rfl, rfl⟩ := hadj
          obtain ⟨⟨hew, heb, hb, hi⟩, -, rfl⟩ := id hl
          obtain ⟨⟨-, -, hb', -⟩, -, rfl⟩ := id hr
          have he : e.IsBV e.bits := ⟨hew, heb, rfl⟩
          have hle : index' + (bits' + bits) ≤ e.bits := by omega
          refine (extract_meets h he (by omega) hle).mono fun x hx => ?_
          rw [Call.meets_extract_iff he (by omega) hle, Nat.add_comm bits'] at hx
          obtain ⟨hx, hv, hw, -⟩ := hx
          refine (Call.meets_concat_iff hl hr).2 ⟨hx, fun ρ hρ => ?_, ?_, nofun⟩
          · rw [hv ρ hρ, Nat.add_comm, ← append_slices]
            rfl
          · have hcut := weightIn_append_le e index' bits' bits
            rw [weight_extract, weight_extract]
            rw [Nat.add_comm bits'] at hcut
            omega
      next => exact hext
  next => exact hext

/-! ### The other methods -/

include h in
theorem zext_meets {n w : Nat} (he : e.IsBV n) (hw : n ≤ w) :
    Completes σ stops ok (createZExt (.common :: next) next e w)
      ((Call.ext .zext e w).Meets E true) := by
  have hc : (ext 0 .zext e w).IsBV w := ⟨⟨he.wellSorted, he.isBoolean, he.bits ▸ hw⟩, rfl, rfl⟩
  rw [createZExt, if_neg (by rw [he.bits]; omega)]
  split
  next heq =>
      refine Terminates.ret (Call.meets_of_agrees rfl rfl ?_ true)
      exact .of_isBV ⟨he.1, he.2, heq⟩ hc fun ρ _ => (value_zext he hw ρ 0).symm
  next => exact h.completes hc.wellSorted rfl

include h in
theorem add_meets {n : Nat} (hl : l.IsBV n) (hr : r.IsBV n) :
    Completes σ stops ok (createAdd next l r) ((Call.binary .add l r).Meets E true) := by
  rw [createAdd]
  split
  next hz =>
      obtain ⟨ref, m, rfl⟩ := isZero_iff.1 hz
      obtain rfl : m = n := hl.bits
      refine Terminates.ret ((Call.meets_binary_iff (by decide) hl hr).2
        ⟨hr, fun ρ _ => ?_, by omega, fun _ hk => hk⟩)
      rw [bv_constant]
      exact (BitVec.zero_add _).symm
  next => exact h.completes (isBV_binary rfl hl hr 0).wellSorted rfl

include h in
theorem mul_meets {n : Nat} (hl : l.IsBV n) (hr : r.IsBV n) :
    Completes σ stops ok (createMul next l r) ((Call.binary .mul l r).Meets E true) := by
  rw [createMul]
  split
  next hz =>
      obtain ⟨ref, m, rfl⟩ := isZero_iff.1 hz
      obtain rfl : m = n := hl.bits
      refine Terminates.ret ((Call.meets_binary_iff (by decide) hl hr).2
        ⟨hl, fun ρ _ => ?_, by simp, fun _ _ => rfl⟩)
      rw [bv_constant]
      exact BitVec.zero_mul.symm
  split
  next ho =>
      obtain ⟨ref, m, rfl⟩ := isOne_iff.1 ho
      obtain rfl : m = n := hl.bits
      refine Terminates.ret ((Call.meets_binary_iff (by decide) hl hr).2
        ⟨hr, fun ρ _ => ?_, by omega, fun _ hk => hk⟩)
      rw [bv_constant]
      exact (BitVec.one_mul _).symm
  next => exact h.completes (isBV_binary rfl hl hr 0).wellSorted rfl

/-- What `simplifyAnd`, `simplifyOr` and `simplifyXor` owe. -/
def Simplifies (E : Input → Prop) (k : BinaryKind) (simplify : Expr → Expr → Option Expr) : Prop :=
  ∀ {n : Nat} {l r x : Expr}, l.IsBV n → r.IsBV n → simplify l r = some x →
    Agrees E x (binary 0 k l r)

theorem simplifyAnd_spec : Simplifies E .and simplifyAnd := by
  intro n l r x hl hr hx
  have hp := isBV_binary (k := .and) rfl hl hr 0
  unfold simplifyAnd at hx
  split at hx
  next hz =>
      cases hx
      obtain ⟨ref, m, rfl⟩ := isZero_iff.1 hz
      obtain rfl : m = n := hl.bits
      refine .of_bv hl hp fun ρ _ => ?_
      rw [bv_binary ρ 0 .and hl.bits, bv_constant]
      exact BitVec.zero_and.symm
  split at hx
  next ho =>
      cases hx
      obtain ⟨ref, m, rfl⟩ := isAllOnes_iff.1 ho
      obtain rfl : m = n := hl.bits
      refine .of_bv hr hp fun ρ _ => ?_
      rw [bv_binary ρ 0 .and hl.bits, bv_constant]
      exact BitVec.allOnes_and.symm
  next => cases hx

theorem simplifyOr_spec : Simplifies E .or simplifyOr := by
  intro n l r x hl hr hx
  have hp := isBV_binary (k := .or) rfl hl hr 0
  unfold simplifyOr at hx
  split at hx
  next hz =>
      cases hx
      obtain ⟨ref, m, rfl⟩ := isZero_iff.1 hz
      obtain rfl : m = n := hl.bits
      refine .of_bv hr hp fun ρ _ => ?_
      rw [bv_binary ρ 0 .or hl.bits, bv_constant]
      exact BitVec.zero_or.symm
  split at hx
  next ho =>
      cases hx
      obtain ⟨ref, m, rfl⟩ := isAllOnes_iff.1 ho
      obtain rfl : m = n := hl.bits
      refine .of_bv hl hp fun ρ _ => ?_
      rw [bv_binary ρ 0 .or hl.bits, bv_constant]
      exact BitVec.allOnes_or.symm
  next => cases hx

theorem simplifyXor_spec : Simplifies E .xor simplifyXor := by
  intro n l r x hl hr hx
  have hp := isBV_binary (k := .xor) rfl hl hr 0
  unfold simplifyXor at hx
  split at hx
  next hz =>
      cases hx
      obtain ⟨ref, m, rfl⟩ := isZero_iff.1 hz
      obtain rfl : m = n := hl.bits
      refine .of_bv hr hp fun ρ _ => ?_
      rw [bv_binary ρ 0 .xor hl.bits, bv_constant]
      exact BitVec.zero_xor.symm
  next => cases hx

include h in
theorem bitwise_meets {k : BinaryKind} {simplify : Expr → Expr → Option Expr}
    (hk : k.isBitwise = true) (hs : Simplifies E k simplify)
    (hbody : ∀ l r, Qsym.body σ ⟨.common :: next, .binary k l r⟩ =
      createBitwise (.common :: next) next k simplify l r)
    {n : Nat} (hl : l.IsBV n) (hr : r.IsBV n) :
    Completes σ stops ok (ExprBuilder.create (.common :: next) (.binary k l r))
      ((Call.binary k l r).Meets E true) := by
  have hlog := isLogical_of_isBitwise hk
  have hleaf : ∀ l r, (Call.binary k l r).isLeaf = false := fun _ _ => rfl
  have hm : ∀ l r, (Call.binary k l r).isMeasured = false := by
    intro l r; cases k <;> first | rfl | cases hk
  have ht : ∀ l r, (Call.binary k l r).traps = false := by
    intro l r; cases k <;> first | rfl | cases hk
  induction r generalizing l n with
  | concat ref rl rr ihl ihr =>
      have hnext := h (.binary k l _) (isBV_binary hlog hl hr 0).wellSorted (ht _ _)
      refine completes_create fun _ => ?_
      rw [hbody]
      unfold createBitwise
      split
      next x hx =>
          exact Terminates.ret (Call.meets_of_agrees (hleaf _ _) (hm _ _) (hs hl hr hx) true)
      next =>
          cases l with
          | constant ref' m v =>
              obtain ⟨⟨hlw, hrw, hlb, hrb⟩, -, rfl⟩ := id hr
              have hrl : rl.IsBV rl.bits := ⟨hlw, hlb, rfl⟩
              have hrr : rr.IsBV rr.bits := ⟨hrw, hrb, rfl⟩
              refine Terminates.bind (extract_meets h hl hrl.pos (Nat.add_comm ..).le)
                fun ll hll => ?_
              rw [Call.meets_extract_iff hl hrl.pos (Nat.add_comm ..).le] at hll
              obtain ⟨hll, hvl, -, -⟩ := hll
              split
              next left hleft =>
                  have hleft := hs hll hrl hleft
                  have hle : 0 + rr.bits ≤ (concat ref rl rr).bits := by simp [bits]
                  refine Terminates.bind (extract_meets h hl hrr.pos hle) fun lr hlr => ?_
                  rw [Call.meets_extract_iff hl hrr.pos hle] at hlr
                  obtain ⟨hlr, hvr, -, -⟩ := hlr
                  refine Terminates.bind (ihr hlr hrr) fun right hright => ?_
                  have hlbv := hleft.isBV (isBV_binary hlog hll hrl 0)
                  have hrbv := hright.agrees.isBV (isBV_binary hlog hlr hrr 0)
                  refine (concat_meets h hlbv hrbv).mono fun x hx => ?_
                  refine Call.meets_of_agrees (hleaf _ _) (hm _ _) ?_ true
                  rw [Call.meets_concat_iff hlbv hrbv] at hx
                  obtain ⟨hx, hv, -, -⟩ := hx
                  refine .of_isBV hx (isBV_binary hlog hl hr 0) fun ρ hρ => ?_
                  refine Eq.trans ?_ (value_bitwise_parts hk hl hr ρ 0).symm
                  rw [hv ρ hρ, hleft.value ρ hρ, hright.agrees.value ρ hρ,
                    value_bitwise hk hll hrl, slice_concat_left hrl hrr, slice_concat_right hrr,
                    hvl ρ hρ, ← hvr ρ hρ]
                  exact congrArg _ (value_bitwise hk hlr hrr ρ 0)
              next => exact hnext
          | _ => exact hnext
  | _ =>
      have hnext := h (.binary k l _) (isBV_binary hlog hl hr 0).wellSorted (ht _ _)
      refine completes_create fun _ => ?_
      rw [hbody]
      unfold createBitwise
      split
      next x hx =>
          exact Terminates.ret (Call.meets_of_agrees (hleaf _ _) (hm _ _) (hs hl hr hx) true)
      next =>
          cases l <;> exact hnext

theorem value_shl {n : Nat} (hl : l.IsBV n) (ρ : Input) (ref ref' : Nat) (v : BitVec n) :
    (binary ref .shl l (constant ref' n v)).value ρ = l.value ρ * 2 ^ v.toNat % 2 ^ n := by
  rw [value_binary ρ ref .shl hl.bits, bv_constant, BinaryKind.apply, BitVec.shiftLeft_eq',
    BitVec.toNat_shiftLeft, hl.toNat_bv, Nat.shiftLeft_eq]

theorem value_lshr {n : Nat} (hl : l.IsBV n) (ρ : Input) (ref ref' : Nat) (v : BitVec n) :
    (binary ref .lshr l (constant ref' n v)).value ρ = l.value ρ / 2 ^ v.toNat := by
  rw [value_binary ρ ref .lshr hl.bits, bv_constant, BinaryKind.apply, BitVec.ushiftRight_eq',
    BitVec.toNat_ushiftRight, hl.toNat_bv, Nat.shiftRight_eq_div_pow]

include h in
/-- A constant zero of any width. -/
theorem zero_builds {n : Nat} (hn : 0 < n) :
    Completes σ stops ok (ExprBuilder.createConstant (.common :: next) 0 n)
      (fun x => x.IsBV n ∧ ∀ ρ, x.value ρ = 0) := by
  refine completes_create fun _ => (h.constant hn _).mono ?_
  rintro _ ⟨ref, rfl⟩
  exact ⟨isBV_constant hn _ _, fun ρ => by simp [value]⟩

include h in
theorem shl_meets {n : Nat} (hl : l.IsBV n) (hr : r.IsBV n) :
    Completes σ stops ok (createShl (.common :: next) next l r)
      ((Call.binary .shl l r).Meets E true) := by
  have hp := isBV_binary (k := .shl) rfl hl hr 0
  have hnext := h (.binary .shl l r) hp.wellSorted rfl
  have done : ∀ {x : Expr}, x.IsBV n → (∀ ρ, E ρ → x.value ρ = (binary 0 .shl l r).value ρ) →
      (Call.binary .shl l r).Meets E true x := fun hx hv =>
    Call.meets_of_agrees (c := .binary .shl l r) rfl rfl (.of_isBV hx hp hv) true
  unfold createShl
  split
  next hz =>
      obtain ⟨ref, m, rfl⟩ := isZero_iff.1 hz
      obtain rfl : m = n := hl.bits
      refine Terminates.ret (done hl fun ρ _ => ?_)
      rw [value_binary ρ 0 .shl hl.bits, bv_constant]
      simp [BinaryKind.apply, value]
  cases r with
  | constant ref m v =>
      obtain rfl : m = n := hr.bits
      simp only [hl.bits]
      split
      next h0 =>
          refine Terminates.ret (done hl fun ρ _ => ?_)
          rw [value_shl hl, h0, Nat.pow_zero, Nat.mul_one, Nat.mod_eq_of_lt (hl.value_lt ρ)]
      split
      next h0 hle =>
          refine (zero_builds h hl.pos).mono fun x hx => done hx.1 fun ρ _ => ?_
          rw [hx.2 ρ, value_shl hl, ← Nat.sub_add_cancel hle, Nat.pow_add, ← Nat.mul_assoc,
            Nat.mul_mod_left]
      split
      next h0 hlt _ =>
          have hlt : v.toNat < m := by omega
          refine Terminates.bind (zero_builds h (Nat.pos_of_ne_zero h0)) fun zero hzero => ?_
          have hle : 0 + (m - v.toNat) ≤ m := by omega
          have hpos : 0 < m - v.toNat := by omega
          refine Terminates.bind (extract_meets h hl hpos hle) fun part hpart => ?_
          rw [Call.meets_extract_iff hl hpos hle] at hpart
          obtain ⟨hpart, hv, -, -⟩ := hpart
          refine (concat_meets h hpart hzero.1).mono fun x hx => ?_
          rw [Call.meets_concat_iff hpart hzero.1, Nat.sub_add_cancel hlt.le] at hx
          refine done hx.1 fun ρ hρ => ?_
          rw [hx.2.1 ρ hρ, hv ρ hρ, hzero.2 ρ, value_shl hl, slice, Nat.pow_zero, Nat.div_one,
            Nat.add_zero, ← Nat.mul_mod_mul_right, ← Nat.pow_add, Nat.sub_add_cancel hlt.le]
      next => exact hnext
  | _ => exact hnext

include h in
theorem lshr_meets {n : Nat} (hl : l.IsBV n) (hr : r.IsBV n) :
    Completes σ stops ok (createLShr (.common :: next) next l r)
      ((Call.binary .lshr l r).Meets E true) := by
  have hp := isBV_binary (k := .lshr) rfl hl hr 0
  have hnext := h (.binary .lshr l r) hp.wellSorted rfl
  have done : ∀ {x : Expr}, x.IsBV n → (∀ ρ, E ρ → x.value ρ = (binary 0 .lshr l r).value ρ) →
      (Call.binary .lshr l r).Meets E true x := fun hx hv =>
    Call.meets_of_agrees (c := .binary .lshr l r) rfl rfl (.of_isBV hx hp hv) true
  unfold createLShr
  split
  next hz =>
      obtain ⟨ref, m, rfl⟩ := isZero_iff.1 hz
      obtain rfl : m = n := hl.bits
      refine Terminates.ret (done hl fun ρ _ => ?_)
      rw [value_binary ρ 0 .lshr hl.bits, bv_constant]
      simp [BinaryKind.apply, value]
  cases r with
  | constant ref m v =>
      obtain rfl : m = n := hr.bits
      simp only [hl.bits]
      split
      next h0 =>
          refine Terminates.ret (done hl fun ρ _ => ?_)
          rw [value_lshr hl, h0, Nat.pow_zero, Nat.div_one]
      split
      next h0 hle =>
          refine (zero_builds h hl.pos).mono fun x hx => done hx.1 fun ρ _ => ?_
          rw [hx.2 ρ, value_lshr hl, Nat.div_eq_of_lt]
          exact Nat.lt_of_lt_of_le (hl.value_lt ρ) (Nat.pow_le_pow_right Nat.two_pos hle)
      split
      next h0 hlt _ =>
          have hlt : v.toNat < m := by omega
          refine Terminates.bind (zero_builds h (Nat.pos_of_ne_zero h0)) fun zero hzero => ?_
          have hle : v.toNat + (m - v.toNat) ≤ m := by omega
          have hpos : 0 < m - v.toNat := by omega
          refine Terminates.bind (extract_meets h hl hpos hle) fun part hpart => ?_
          rw [Call.meets_extract_iff hl hpos hle] at hpart
          obtain ⟨hpart, hv, -, -⟩ := hpart
          refine (concat_meets h hzero.1 hpart).mono fun x hx => ?_
          rw [Call.meets_concat_iff hzero.1 hpart, Nat.add_sub_cancel' hlt.le] at hx
          refine done hx.1 fun ρ hρ => ?_
          rw [hx.2.1 ρ hρ, hv ρ hρ, hzero.2 ρ, value_lshr hl, Nat.zero_mul, Nat.zero_add, slice]
          refine Nat.mod_eq_of_lt ((Nat.div_lt_iff_lt_mul (Nat.two_pow_pos _)).2 ?_)
          rw [← Nat.pow_add, Nat.sub_add_cancel hlt.le]
          exact hl.value_lt ρ
      next => exact hnext
  | _ => exact hnext

include h in
theorem ashr_meets {n : Nat} (hl : l.IsBV n) (hr : r.IsBV n) :
    Completes σ stops ok (createAShr next l r) ((Call.binary .ashr l r).Meets E true) := by
  have hp := isBV_binary (k := .ashr) rfl hl hr 0
  unfold createAShr
  split
  next hz =>
      obtain ⟨ref, m, rfl⟩ := isZero_iff.1 hz
      obtain rfl : m = n := hr.bits
      have ha : Agrees E l (binary 0 .ashr l (constant ref m 0)) := .of_bv hl hp fun ρ _ => ?_
      · exact Terminates.ret (Call.meets_of_agrees rfl rfl ha true)
      rw [bv_binary ρ 0 .ashr hl.bits, bv_constant]
      simp [BinaryKind.apply, BitVec.sshiftRight']
  next => exact h (.binary .ashr l r) hp.wellSorted rfl

include h in
theorem equal_meets (hc : (Call.compare .equal l r).plain.WellSorted) :
    Completes σ stops ok (createEqual (.common :: next) next l r)
      ((Call.compare .equal l r).Meets E true) := by
  have hnext := h (.compare .equal l r) hc rfl
  cases l with
  | bool ref b =>
      obtain ⟨hlw, hrw, hbits, hbool, -⟩ := id hc
      have hl : (Expr.bool ref b).IsBool := isBool_bool ref b
      have hr : r.IsBool := ⟨hrw, hbool.symm⟩
      have hv : ∀ ρ, (Call.compare .equal (.bool ref b) r).plain.truth ρ = (b == r.truth ρ) := by
        intro ρ
        refine (truth_compare hl.bits 0).trans ?_
        rw [hl.bv_eq, hr.bv_eq, truth_bool, CompareKind.holds]
        cases b <;> cases r.truth ρ <;> rfl
      unfold createEqual
      cases b with
      | true =>
          refine Terminates.ret
            (Call.meets_of_agrees rfl rfl (.of_isBool hr ⟨hc, rfl⟩ fun ρ _ => ?_) true)
          rw [hv ρ, Bool.true_beq]
      | false =>
          have hn := isBool_lnot hr 0
          refine completes_create fun _ =>
            (h.completes (c := .unary .lnot r) hn.wellSorted rfl).mono ?_
          intro x hx
          refine Call.meets_of_agrees rfl rfl (.of_isBool (hx.agrees.isBool hn) ⟨hc, rfl⟩
            fun ρ hρ => ?_) true
          rw [hx.agrees.truth hρ, hv ρ, Bool.false_beq]
          exact truth_lnot hr 0
  | _ => exact hnext

end CommonSimplifyExprBuilder

/-- A division by zero is handed on. -/
theorem common_of_traps {σ : Session} (next : ExprBuilder) {c : Call} (h : c.traps = true) :
    body σ ⟨.common :: next, c⟩ = next.create c := by
  cases c with
  | binary k l r =>
      simp only [Call.traps, Bool.and_eq_true] at h
      cases k <;> first | rfl | cases h.1.1
  | _ => cases h

open CommonSimplifyExprBuilder in
theorem common_completes {σ : Session} {E : Input → Prop} {next : ExprBuilder}
    (h : CompletesOn σ stops ok E true next) : CompletesOn σ stops ok E true (.common :: next) := by
  intro c hc ht
  cases c with
  | concat l r => exact concat_meets h ⟨hc.1, hc.2.2.1, rfl⟩ ⟨hc.2.1, hc.2.2.2, rfl⟩
  | extract e i b => exact extract_meets h ⟨hc.1, hc.2.1, rfl⟩ hc.2.2.1 hc.2.2.2
  | ext k e w =>
      refine completes_create fun _ => ?_
      cases k with
      | zext => exact zext_meets h ⟨hc.1, hc.2.1, rfl⟩ hc.2.2
      | sext => exact h _ hc ht
  | binary k l r =>
      cases hk : k.isLogical with
      | true =>
          refine completes_create fun _ => ?_
          cases k <;> first | exact h _ hc ht | cases hk
      | false =>
          obtain ⟨n, hl, hr⟩ := (wellSorted_binary_iff hk).1 hc
          cases k with
          | add => exact completes_create fun _ => add_meets h hl hr
          | mul => exact completes_create fun _ => mul_meets h hl hr
          | and => exact bitwise_meets h rfl simplifyAnd_spec (fun _ _ => rfl) hl hr
          | or => exact bitwise_meets h rfl simplifyOr_spec (fun _ _ => rfl) hl hr
          | xor => exact bitwise_meets h rfl simplifyXor_spec (fun _ _ => rfl) hl hr
          | shl => exact completes_create fun _ => shl_meets h hl hr
          | lshr => exact completes_create fun _ => lshr_meets h hl hr
          | ashr => exact completes_create fun _ => ashr_meets h hl hr
          | _ => exact completes_create fun _ => h _ hc ht
  | compare k l r =>
      refine completes_create fun _ => ?_
      cases k with
      | equal => exact equal_meets h hc
      | _ => exact h _ hc ht
  | _ => exact completes_create fun _ => h _ hc ht

end Qsym
