import Qsym.Builder.Pruned

/-!
# Qsym.Builder.Sound

A builder as the code outside sees it, `g_expr_builder`. `Sound` is what both chains
offer for calls other than signed quotients; the symbolic chain offers it without a
condition for the calls that never come to a division (`chain_soundSimply`). The rules
below state it call by call in terms of what the operands **denote**: a bit vector that
depends on the input, or a condition on the input.
-/

namespace Qsym

open Procedure Qsym.Expr

/-- The results of the builder agree with the calls on the inputs of `E`, as long as only
calls in `ok` are reached. -/
def Sound (σ : Session) (ok : MethodCall → Prop) (E : Input → Prop) (b : ExprBuilder) : Prop :=
  ∀ c : Call, c.isSDiv = false → c.plain.WellSorted →
    Builds σ ok (b.create c) (fun e => Agrees E e c.plain)

/-- The symbolic chain, as long as its divisions fold exactly. -/
theorem chain_sound (σ : Session) (E : Input → Prop) :
    Sound σ (FoldsExactly E) E SymbolicExprBuilder.chain :=
  fun _ hs hc => chain_meets σ E hs hc

/-- The pruning chain, on the input of the session. -/
theorem prunedChain_sound (σ : Session) :
    Sound σ σ.Covers (· = σ.input) PruneExprBuilder.chain :=
  fun _ _ hc w hw hsafe => prunedChain_agrees (hsafe _ .here) hc w hw hsafe

/-- Calls whose rewriting never comes to a division: an extract is only narrowed when it
takes whole bytes. -/
def Call.isSimple : Call → Bool
  | .extract _ _ bits => bits % 8 ≠ 0
  | c => c.isStructural

/-- `Sound`, for a class of calls. -/
def SoundOn (P : Call → Prop) (σ : Session) (ok : MethodCall → Prop) (E : Input → Prop)
    (b : ExprBuilder) : Prop :=
  ∀ c : Call, P c → c.plain.WellSorted → Builds σ ok (b.create c) (fun e => Agrees E e c.plain)

/-- `Sound`, for the simple calls. -/
abbrev SoundSimply : (σ : Session) → (ok : MethodCall → Prop) → (E : Input → Prop) →
    ExprBuilder → Prop :=
  SoundOn fun c => c.isSimple = true

theorem Sound.simply {σ : Session} {ok : MethodCall → Prop} {E : Input → Prop} {b : ExprBuilder}
    (h : Sound σ ok E b) : SoundSimply σ ok E b := by
  intro c hs hc
  refine h c ?_ hc
  cases c with
  | binary k _ _ => cases k <;> first | rfl | cases hs
  | _ => rfl

/-- The symbolic chain, whatever divisions its operands hold. -/
theorem chain_soundSimply (σ : Session) (E : Input → Prop) :
    SoundSimply σ anyCall E SymbolicExprBuilder.chain := by
  intro c hs hc
  by_cases hstr : c.isStructural = true
  · exact chain_structural σ E hstr hc
  cases c with
  | extract e i bits =>
      have hbits : ¬ (i = 0 ∧ bits % 8 = 0 ∧ e.canEvaluateTruncated bits = true) := by
        intro h
        simp [Call.isSimple, h.2.1] at hs
      -- the layers of rewriting hand the call on to the ones below them
      refine builds_create fun _ => builds_create fun _ => ?_
      show Builds σ anyCall (SymbolicExprBuilder.createExtract _ _ e i bits) _
      rw [SymbolicExprBuilder.createExtract, if_neg hbits]
      exact ((lower_refines σ E).builds hc rfl).mono fun x hx => hx.agrees
  | _ => exact absurd hs hstr

/-- `e` is a bit vector with the value `v` on the inputs of `E`. -/
structure Denotes (E : Input → Prop) (n : Nat) (v : Input → BitVec n) (e : Expr) : Prop where
  isBV : e.IsBV n
  bv : ∀ ρ, E ρ → e.bv ρ n = v ρ

/-- `e` is a truth value that holds on the inputs of `E` with `p`. -/
structure Decides (E : Input → Prop) (p : Input → Bool) (e : Expr) : Prop where
  isBool : e.IsBool
  truth : ∀ ρ, E ρ → e.truth ρ = p ρ

section Rules

variable {σ : Session} {ok : MethodCall → Prop} {E : Input → Prop} {b : ExprBuilder}
variable {l r e : Expr} {m n : Nat} {u v : Input → BitVec n} {p q : Input → Bool}

theorem Denotes.bits (h : Denotes E n v e) : e.bits = n :=
  h.isBV.bits

theorem Denotes.congr (h : Denotes E n v e) (hv : ∀ ρ, E ρ → v ρ = u ρ) : Denotes E n u e :=
  ⟨h.isBV, fun ρ hρ => (h.bv ρ hρ).trans (hv ρ hρ)⟩

theorem Decides.congr (h : Decides E p e) (hp : ∀ ρ, E ρ → p ρ = q ρ) : Decides E q e :=
  ⟨h.isBool, fun ρ hρ => (h.truth ρ hρ).trans (hp ρ hρ)⟩

/-- Agreement passes on what an expression denotes. -/
theorem Denotes.of_agrees {e' : Expr} (h : Denotes E n v e') (ha : Agrees E e e') :
    Denotes E n v e :=
  ⟨ha.isBV h.isBV, fun ρ hρ => (ha.bv hρ n).trans (h.bv ρ hρ)⟩

theorem Decides.of_agrees {e' : Expr} (h : Decides E p e') (ha : Agrees E e e') :
    Decides E p e :=
  ⟨ha.isBool h.isBool, fun ρ hρ => (ha.truth hρ).trans (h.truth ρ hρ)⟩

/-- A call builds what its plain node denotes. -/
theorem SoundOn.denotes (hb : SoundOn P σ ok E b) {c : Call} (hP : P c)
    (h : Denotes E n v c.plain) : Builds σ ok (b.create c) (Denotes E n v) :=
  (hb c hP h.isBV.wellSorted).mono fun _ ha => h.of_agrees ha

theorem SoundOn.decides (hb : SoundOn P σ ok E b) {c : Call} (hP : P c)
    (h : Decides E p c.plain) : Builds σ ok (b.create c) (Decides E p) :=
  (hb c hP h.isBool.wellSorted).mono fun _ ha => h.of_agrees ha

variable {P : Call → Prop} (hb : SoundOn P σ ok E b)

include hb

theorem SoundOn.constant (c : BitVec n) (hP : P (.constant n c)) (hn : 0 < n) :
    Builds σ ok (b.create (.constant n c)) (Denotes E n fun _ => c) :=
  hb.denotes hP ⟨isBV_constant hn 0 c, fun ρ _ => bv_constant ρ 0 n c⟩

theorem SoundOn.bool (c : Bool) (hP : P (.bool c)) :
    Builds σ ok (b.createBool c) (Decides E fun _ => c) :=
  hb.decides hP ⟨isBool_bool 0 c, fun _ _ => truth_bool 0 c⟩

theorem SoundOn.extract {i w : Nat} (hP : P (.extract e i w)) (he : Denotes E n v e) (hw : 0 < w)
    (hi : i + w ≤ n) :
    Builds σ ok (b.createExtract e i w) (Denotes E w fun ρ => (v ρ).extractLsb' i w) := by
  refine hb.denotes hP ⟨isBV_extract he.isBV hw hi 0, fun ρ hρ => ?_⟩
  rw [← he.bv ρ hρ]
  apply BitVec.eq_of_toNat_eq
  simp [Expr.bv, Call.node, value, Bits.slice, Nat.shiftRight_eq_div_pow,
    Nat.mod_eq_of_lt (he.isBV.value_lt ρ)]

theorem SoundOn.concat {v : Input → BitVec m} (hP : P (.concat l r)) (hl : Denotes E m v l)
    (hr : Denotes E n u r) :
    Builds σ ok (b.createConcat l r) (Denotes E (m + n) fun ρ => v ρ ++ u ρ) := by
  have hp := isBV_concat hl.isBV hr.isBV 0
  refine hb.denotes hP ⟨hp, fun ρ hρ => ?_⟩
  apply BitVec.eq_of_toNat_eq
  have hlt := hr.isBV.value_lt ρ
  rw [show (bv ρ (m + n) (Call.concat l r).plain).toNat = _ from hp.toNat_bv ρ,
    BitVec.toNat_append, ← hl.bv ρ hρ, ← hr.bv ρ hρ, hl.isBV.toNat_bv, hr.isBV.toNat_bv,
    Nat.shiftLeft_eq, Nat.mul_comm, ← Nat.two_pow_add_eq_or_of_lt hlt]
  simp only [value, hr.bits, Nat.mul_comm]

theorem SoundOn.ext {v : Input → BitVec m} (k : ExtKind) (hP : P (.ext k e n))
    (he : Denotes E m v e)
    (hn : m ≤ n) :
    Builds σ ok (b.create (.ext k e n)) (Denotes E n fun ρ => k.apply n (v ρ)) := by
  obtain rfl := he.bits
  refine hb.denotes hP ⟨⟨⟨he.isBV.wellSorted, he.isBV.isBoolean, hn⟩, rfl, rfl⟩, fun ρ hρ => ?_⟩
  rw [← he.bv ρ hρ]
  simp [Expr.bv, Call.node, value]

/-- A choice between two bit vectors. -/
theorem SoundOn.ite {c t f : Expr} (hP : P (.ite c t f)) (hc : Decides E p c)
    (ht : Denotes E n u t) (hf : Denotes E n v f) :
    Builds σ ok (b.createIte c t f) (Denotes E n fun ρ => if p ρ then u ρ else v ρ) := by
  have hp : (Expr.ite 0 c t f).IsBV n :=
    ⟨⟨hc.isBool.wellSorted, ht.isBV.wellSorted, hf.isBV.wellSorted, hc.isBool.isBoolean,
      ht.isBV.isBoolean.trans hf.isBV.isBoolean.symm, ht.bits.trans hf.bits.symm⟩,
      ht.isBV.isBoolean, ht.bits⟩
  refine hb.denotes hP ⟨hp, fun ρ hρ => ?_⟩
  rw [← ht.bv ρ hρ, ← hf.bv ρ hρ, ← hc.truth ρ hρ]
  simp only [Expr.bv, Call.node, value_ite]
  split <;> rfl

theorem SoundOn.unary {k : UnaryKind} (hP : P (.unary k e)) (hk : k ≠ .lnot)
    (he : Denotes E n v e) :
    Builds σ ok (b.create (.unary k e)) (Denotes E n fun ρ => k.apply (v ρ)) := by
  have hp : (Expr.unary 0 k e).IsBV n := by
    refine ⟨⟨he.isBV.wellSorted, ?_⟩, ?_, he.bits⟩ <;>
      cases k <;> first | exact he.isBV.isBoolean | rfl | exact absurd rfl hk
  refine hb.denotes hP ⟨hp, fun ρ hρ => ?_⟩
  rw [← he.bv ρ hρ]
  exact bv_unary ρ 0 k he.bits

theorem SoundOn.binary {k : BinaryKind} (hP : P (.binary k l r)) (hk : k.isLogical = false)
    (hl : Denotes E n u l) (hr : Denotes E n v r) :
    Builds σ ok (b.create (.binary k l r)) (Denotes E n fun ρ => k.apply (u ρ) (v ρ)) := by
  refine hb.denotes hP ⟨isBV_binary hk hl.isBV hr.isBV 0, fun ρ hρ => ?_⟩
  rw [← hl.bv ρ hρ, ← hr.bv ρ hρ]
  exact bv_binary ρ 0 k hl.bits

theorem SoundOn.compare (k : CompareKind) (hP : P (.compare k l r)) (hl : Denotes E n u l)
    (hr : Denotes E n v r) :
    Builds σ ok (b.create (.compare k l r)) (Decides E fun ρ => k.holds (u ρ) (v ρ)) := by
  have hp : (Expr.compare 0 k l r).IsBool :=
    ⟨⟨hl.isBV.wellSorted, hr.isBV.wellSorted, hl.bits.trans hr.bits.symm,
      hl.isBV.isBoolean.trans hr.isBV.isBoolean.symm, fun _ => hl.isBV.isBoolean⟩, rfl⟩
  refine hb.decides hP ⟨hp, fun ρ hρ => ?_⟩
  rw [← hl.bv ρ hρ, ← hr.bv ρ hρ]
  exact truth_compare hl.bits 0

/-- Two truth values that differ. -/
theorem SoundOn.distinct (hP : P (.compare .distinct l r)) (hl : Decides E p l)
    (hr : Decides E q r) :
    Builds σ ok (b.create (.compare .distinct l r)) (Decides E fun ρ => p ρ != q ρ) := by
  have hp : (Expr.compare 0 .distinct l r).IsBool :=
    ⟨⟨hl.isBool.wellSorted, hr.isBool.wellSorted, hl.isBool.bits.trans hr.isBool.bits.symm,
      hl.isBool.isBoolean.trans hr.isBool.isBoolean.symm, nofun⟩, rfl⟩
  refine hb.decides hP ⟨hp, fun ρ hρ => ?_⟩
  refine (truth_compare hl.isBool.bits 0).trans ?_
  rw [hl.isBool.bv_eq, hr.isBool.bv_eq, hl.truth ρ hρ, hr.truth ρ hρ]
  cases p ρ <;> cases q ρ <;> rfl

theorem SoundOn.lnot (hP : P (.unary .lnot e)) (he : Decides E p e) :
    Builds σ ok (b.createLNot e) (Decides E fun ρ => !p ρ) := by
  refine hb.decides hP ⟨isBool_lnot he.isBool 0, fun ρ hρ => ?_⟩
  rw [← he.truth ρ hρ]
  exact truth_lnot he.isBool 0

theorem SoundOn.lor (hP : P (.binary .lor l r)) (hl : Decides E p l) (hr : Decides E q r) :
    Builds σ ok (b.createLOr l r) (Decides E fun ρ => p ρ || q ρ) := by
  refine hb.decides hP ⟨isBool_binary rfl hl.isBool hr.isBool 0, fun ρ hρ => ?_⟩
  rw [← hl.truth ρ hρ, ← hr.truth ρ hρ]
  exact truth_lor hl.isBool hr.isBool 0

theorem SoundOn.land (hP : P (.binary .land l r)) (hl : Decides E p l) (hr : Decides E q r) :
    Builds σ ok (b.createLAnd l r) (Decides E fun ρ => p ρ && q ρ) := by
  refine hb.decides hP ⟨isBool_binary rfl hl.isBool hr.isBool 0, fun ρ hρ => ?_⟩
  rw [← hl.truth ρ hρ, ← hr.truth ρ hρ]
  exact truth_land hl.isBool hr.isBool 0

end Rules

end Qsym
