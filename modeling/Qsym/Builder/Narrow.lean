import Qsym.Builder.Quotient

/-!
# Qsym.Builder.Narrow

The low bits of a product, a quotient or a remainder, evaluated in the narrow type. That
`canEvaluateTruncated` admits an operator is enough for its operands to be cut off before it
is applied (`narrowed_value`), for a divisor of zero as well. The nested scans run at width
one, so they admit less than the outer scan would, never more. What can still go wrong is the
call of the narrow operator: a division of quotients is folded modulo the narrow width.
-/

namespace Qsym

open Procedure Qsym.Expr Bits

namespace SymbolicExprBuilder

/-- The operators of `evaluateInDifferentType`. -/
def isNarrowed : BinaryKind → Bool
  | .mul | .udiv | .urem => true
  | _ => false

/-- The operator applied to the low `b` bits of its operands. -/
def narrowed (k : BinaryKind) (l r : Expr) (b : Nat) : Expr :=
  .binary 0 k (.extract 0 l 0 b) (.extract 0 r 0 b)

variable {σ : Session} {k : BinaryKind} {l r : Expr} {ref n b : Nat}

theorem isNarrowed_iff : isNarrowed k = true ↔ k = .mul ∨ k = .udiv ∨ k = .urem := by
  cases k <;> simp [isNarrowed]

/-- Cutting the operands off loses nothing of the low bits. -/
theorem narrowed_value (hop : (Expr.binary ref k l r).IsBV n)
    (hk : isNarrowed k = true) (hb : 0 < b)
    (hbn : b ≤ n) (hc : (Expr.binary ref k l r).canEvaluateTruncated b = true) (ρ : Input) :
    (narrowed k l r b).value ρ = (Expr.binary ref k l r).value ρ % 2 ^ b := by
  obtain ⟨hl, hr⟩ := hop.operands
  have hle : 0 + b ≤ n := by omega
  have hel := isBV_extract hl hb hle 0
  have her := isBV_extract hr hb hle 0
  have hfits := fits_of_canEvaluateTruncated hl hr hbn (isNarrowed_iff.1 hk) hc ρ
  have hvalue : (k.apply ((extract 0 l 0 b).bv ρ b) ((extract 0 r 0 b).bv ρ b)).toNat =
      slice ((binary ref k l r).value ρ) 0 b := narrow_value ρ hl hr hbn hel her rfl rfl hfits
  rw [narrowed, value_binary ρ 0 k hel.bits, hvalue, slice, Nat.pow_zero, Nat.div_one]

/-- Such an extract is evaluated in the narrow type. -/
theorem body_narrow (hk : isNarrowed k = true) (h8 : b % 8 = 0)
    (hc : (Expr.binary ref k l r).canEvaluateTruncated b = true) :
    Qsym.body σ ⟨builder, .extract (.binary ref k l r) 0 b⟩ =
      evaluateInDifferentType.narrow builder 0 b k l r := by
  have hbody : Qsym.body σ ⟨builder, .extract (.binary ref k l r) 0 b⟩ =
      createExtract builder [.common, .constantFolding, .cache, .base]
        (.binary ref k l r) 0 b := rfl
  rw [hbody, createExtract, if_pos ⟨rfl, h8, hc⟩]
  rcases isNarrowed_iff.1 hk with rfl | rfl | rfl <;> rfl

/-- **Truncated evaluation.** Where `createExtract` evaluates an operator in the narrow type,
the operator on the low bits of the operands has the low bits of the result under every
assignment, and the expression that is returned has them under every assignment under which
the calls that it comes to fold their divisions exactly. -/
theorem createExtract_narrow_keeps (hop : (Expr.binary ref k l r).IsBV n) (hk : isNarrowed k = true)
    (hb : 0 < b) (hbn : b ≤ n) (h8 : b % 8 = 0)
    (hc : (Expr.binary ref k l r).canEvaluateTruncated b = true) (σ : Session) (w : World)
    (ρ : Input) :
    Qsym.body σ ⟨builder, .extract (.binary ref k l r) 0 b⟩ =
        evaluateInDifferentType.narrow builder 0 b k l r ∧
      (narrowed k l r b).value ρ = (Expr.binary ref k l r).value ρ % 2 ^ b ∧
      (Safe (Qsym.body σ) (FoldsExactly (· = ρ))
          (ExprBuilder.createExtract builder (.binary ref k l r) 0 b) w →
        ∃ e w', Runs (Qsym.body σ)
          (ExprBuilder.createExtract builder (.binary ref k l r) 0 b) w e w' ∧
          e.isBoolean = false ∧ e.bits = b ∧
          e.value ρ = (Expr.binary ref k l r).value ρ % 2 ^ b) := by
  refine ⟨body_narrow hk h8 hc, narrowed_value hop hk hb hbn hc ρ, fun hsafe => ?_⟩
  have hle : 0 + b ≤ n := by omega
  have hws := (isBV_extract hop hb hle 0).wellSorted
  have hmeets : Builds σ (FoldsExactly (· = ρ))
      (ExprBuilder.createExtract builder (.binary ref k l r) 0 b)
      ((Call.extract (.binary ref k l r) 0 b).Meets (· = ρ) true) :=
    Terminates.total
      (symbolic_meets (lower_completes σ (· = ρ) False _) (fun _ h => h.pointwise) rfl hws)
  obtain ⟨e, w', hr, -, he⟩ := hmeets w trivial hsafe
  refine ⟨e, w', hr, he.agrees.isBoolean, he.agrees.bits, ?_⟩
  rw [he.agrees.value ρ rfl, Call.plain, Call.node, value, slice, Nat.pow_zero, Nat.div_one]

/-- `ZExt(Read 0) urem ZExt(Read 1)` over 32 bits. -/
def wideRemainder : Expr :=
  .binary 4 .urem (.ext 2 .zext (.read 0) 32) (.ext 3 .zext (.read 1) 32)

/-- A remainder by zero, cut off to a byte. -/
theorem createExtract_narrow_remainder : ∃ e w',
    Runs (Qsym.body quietSession) (ExprBuilder.createExtract builder wideRemainder 0 8)
      (freshWorld 5) e w' ∧
      e.isBoolean = false ∧ e.bits = 8 ∧
      e.value (fun i => if i = 0 then 7 else 0) =
        wideRemainder.value (fun i => if i = 0 then 7 else 0) % 2 ^ 8 :=
  (createExtract_narrow_keeps (n := 32) ⟨by decide, rfl, rfl⟩ rfl (by decide) (by decide) rfl
    (by decide) quietSession (freshWorld 5) (fun i => if i = 0 then 7 else 0)).2.2
      (safe_of_trace (n := 40) (by decide +kernel))

/-- `C(0, C(Read 1, Read 0) / 256) / 256` over 32 bits. -/
def wideQuotient : Expr :=
  .binary 7 .udiv (.concat 5 (.constant 4 16 0) (.binary 3 .udiv (.concat 1 (.read 1) (.read 0))
    (.constant 2 16 256))) (.constant 6 32 256)

/-- The quotient is zero, but its low half is built as `C(Read 1, Read 0) / 0`. -/
theorem createExtract_narrow_not_keeps : wideQuotient.IsBV 32 ∧
    wideQuotient.canEvaluateTruncated 16 = true ∧ wideQuotient.value (fun _ => 255) % 2 ^ 16 = 0 ∧
    ¬ ∃ e w', Runs (Qsym.body quietSession) (ExprBuilder.createExtract builder wideQuotient 0 16)
        (freshWorld 8) e w' ∧ e.isBoolean = false ∧ e.bits = 16 ∧
        e.value (fun _ => 255) = wideQuotient.value (fun _ => 255) % 2 ^ 16 := by
  refine ⟨⟨by decide, rfl, rfl⟩, by decide, by decide +kernel, ?_⟩
  rintro ⟨e, w', hr, -, -, hv⟩
  have hrun : ((ExprBuilder.createExtract builder wideQuotient 0 16).run
      (exec (Qsym.body quietSession) 40) (freshWorld 8)).map (fun x => x.1.value fun _ => 255) =
        some 65535 := by
    decide +kernel
  exact absurd ((hr.eq_of_run hrun).symm.trans hv) (by decide +kernel)

end SymbolicExprBuilder

end Qsym
