import Qsym.Builder.Common

/-!
# Qsym.Builder.Exclusive

`simplifyExclusiveExpr` is right: when no bit may be set in both operands, the
operands' pieces, each taken where the other operand is zero, concatenate to their
bitwise disjunction, which is also their sum.

The scan is pure (`exclusivePieces`). What it owes is `Tiles`: the pieces lie next
to each other up to the full width, and each is cut where the other operand is
zero. The pieces together weigh no more than the operands, because every cut is
next to a zero bit.
-/

namespace Qsym.SymbolicExprBuilder

open Procedure Qsym.Expr Bits

/-! ### The scan -/

theorem zeroRun_le (e : Expr) (i n : Nat) : zeroRun e i n ≤ n := by
  induction n generalizing i with
  | zero => exact Nat.le_refl 0
  | succ n ih =>
      rw [zeroRun]
      split
      · exact Nat.succ_le_succ (ih (i + 1))
      · exact Nat.zero_le _

theorem isZeroBit_of_zeroRun {e : Expr} {i n j : Nat} (hi : i ≤ j) (hj : j < i + zeroRun e i n) :
    e.isZeroBit j = true := by
  induction n generalizing i with
  | zero => rw [zeroRun] at hj; omega
  | succ n ih =>
      rw [zeroRun] at hj
      split at hj
      next hz =>
          by_cases heq : i = j
          · exact heq ▸ hz
          · exact @ih (i + 1) (by omega) (by omega)
      next => omega

/-- A run ends at a bit that is not known to be zero. -/
theorem isZeroBit_zeroRun {e : Expr} {i n : Nat} (h : zeroRun e i n < n) :
    e.isZeroBit (i + zeroRun e i n) = false := by
  induction n generalizing i with
  | zero => omega
  | succ n ih =>
      rw [zeroRun] at h ⊢
      split
      next hz =>
          rw [if_pos hz] at h
          rw [show i + (zeroRun e (i + 1) n + 1) = i + 1 + zeroRun e (i + 1) n by omega]
          exact ih (by omega)
      next hz => simpa using hz

theorem exclusive_iff {l r : Expr} :
    exclusive l r = true ↔ ∀ i < l.bits, l.isZeroBit i = true ∨ r.isZeroBit i = true := by
  simp [exclusive]

/-- The pieces `ps` lie next to each other from bit `i` to bit `n`, each cut where the
other operand is zero. -/
def Tiles (l r : Expr) (n : Nat) : Nat → List Piece → Prop
  | i, [] => i = n
  | i, (e, j, b) :: ps =>
      j = i ∧ 0 < b ∧ i + b ≤ n ∧
        ((e = r ∧ ∀ k, i ≤ k → k < i + b → l.isZeroBit k = true) ∨
          (e = l ∧ ∀ k, i ≤ k → k < i + b → r.isZeroBit k = true)) ∧
        Tiles l r n (i + b) ps

/-- What the pieces weigh together. -/
def piecesWeight (ps : List Piece) : Nat :=
  (ps.map fun p => p.1.weightIn p.2.1 p.2.2).sum

section Round

variable {l r : Expr} {n i m b : Nat} {ps : List Piece}

/-- The pieces of one round, in front of the pieces of the rounds after it. -/
theorem tiles_round (hn : i + m + b ≤ n) (hpos : 0 < m + b)
    (hzl : ∀ k, i ≤ k → k < i + m → l.isZeroBit k = true)
    (hzr : ∀ k, i + m ≤ k → k < i + m + b → r.isZeroBit k = true)
    (hps : Tiles l r n (i + m + b) ps) :
    Tiles l r n i
      ((if m = 0 then [] else [(r, i, m)]) ++ (if b = 0 then [] else [(l, i + m, b)]) ++ ps) := by
  have hb : b ≠ 0 → Tiles l r n (i + m) ((l, i + m, b) :: ps) := fun hb =>
    ⟨rfl, Nat.pos_of_ne_zero hb, by omega, .inr ⟨rfl, hzr⟩, hps⟩
  by_cases hm0 : m = 0
  · subst hm0
    rw [if_pos rfl, if_neg (by omega)]
    exact hb (by omega)
  · rw [if_neg hm0]
    refine ⟨rfl, Nat.pos_of_ne_zero hm0, by omega, .inl ⟨rfl, hzl⟩, ?_⟩
    by_cases hb0 : b = 0
    · simpa [hb0] using hps
    · rw [if_neg hb0]
      exact hb hb0

/-- Both cuts of a round are below zero bits of the operand that is cut. -/
theorem weight_round (hn : i + m + b ≤ n) (hzr : i + m < n → r.isZeroBit (i + m) = true)
    (hzl : i + m + b < n → l.isZeroBit (i + m + b) = true)
    (hps : piecesWeight ps ≤ l.weightIn (i + m + b) (n - (i + m + b)) +
      r.weightIn (i + m + b) (n - (i + m + b))) :
    piecesWeight
        ((if m = 0 then [] else [(r, i, m)]) ++ (if b = 0 then [] else [(l, i + m, b)]) ++ ps) ≤
      l.weightIn i (n - i) + r.weightIn i (n - i) := by
  have hr : r.weightIn i m + r.weightIn (i + m) (n - (i + m)) ≤ r.weightIn i (n - i) := by
    by_cases hin : i + m = n
    · rw [hin, Nat.sub_self, weightIn_zero, show n - i = m by omega]
      exact Nat.le_refl _
    · rw [show n - i = m + (n - (i + m)) by omega]
      exact weightIn_cut (hzr (by omega))
  have hl : l.weightIn (i + m) b + l.weightIn (i + m + b) (n - (i + m + b)) ≤
      l.weightIn (i + m) (n - (i + m)) := by
    by_cases hin : i + m + b = n
    · rw [hin, Nat.sub_self, weightIn_zero, show n - (i + m) = b by omega]
      exact Nat.le_refl _
    · rw [show n - (i + m) = b + (n - (i + m + b)) by omega]
      exact weightIn_cut (hzl (by omega))
  have hml : l.weightIn (i + m) (n - (i + m)) ≤ l.weightIn i (n - i) :=
    weightIn_mono l (by omega) (by omega)
  have hmr : r.weightIn (i + m + b) (n - (i + m + b)) ≤ r.weightIn (i + m) (n - (i + m)) :=
    weightIn_mono r (by omega) (by omega)
  have hsum : piecesWeight
      ((if m = 0 then [] else [(r, i, m)]) ++ (if b = 0 then [] else [(l, i + m, b)]) ++ ps) =
      r.weightIn i m + l.weightIn (i + m) b + piecesWeight ps := by
    by_cases hm0 : m = 0 <;> by_cases hb0 : b = 0 <;>
      simp [piecesWeight, hm0, hb0, Nat.add_assoc]
  omega

end Round

theorem exclusivePieces_spec {l r : Expr} {n : Nat} (hl : l.bits = n) (hr : r.bits = n)
    (h : exclusive l r = true) {fuel i : Nat} (hi : i ≤ n) (hf : n ≤ i + fuel) :
    Tiles l r n i (exclusivePieces l r fuel i) ∧
      piecesWeight (exclusivePieces l r fuel i) ≤ l.weightIn i (n - i) + r.weightIn i (n - i) := by
  rw [exclusive_iff, hl] at h
  induction fuel generalizing i with
  | zero =>
      obtain rfl : i = n := by omega
      exact ⟨rfl, Nat.zero_le _⟩
  | succ fuel ih =>
      simp only [exclusivePieces, hl, hr]
      split
      next hlt =>
          have hm := zeroRun_le l i (n - i)
          have hzl : ∀ k, i ≤ k → k < i + zeroRun l i (n - i) → l.isZeroBit k = true :=
            fun k => isZeroBit_of_zeroRun
          have hnl : zeroRun l i (n - i) < n - i →
              l.isZeroBit (i + zeroRun l i (n - i)) = false := isZeroBit_zeroRun
          generalize zeroRun l i (n - i) = m at *
          have hb := zeroRun_le r (i + m) (n - (i + m))
          have hzr : ∀ k, i + m ≤ k → k < i + m + zeroRun r (i + m) (n - (i + m)) →
              r.isZeroBit k = true := fun k => isZeroBit_of_zeroRun
          have hnr : zeroRun r (i + m) (n - (i + m)) < n - (i + m) →
              r.isZeroBit (i + m + zeroRun r (i + m) (n - (i + m))) = false := isZeroBit_zeroRun
          generalize zeroRun r (i + m) (n - (i + m)) = b at *
          have hr' : i + m < n → r.isZeroBit (i + m) = true := fun hlt =>
            (h (i + m) hlt).resolve_left (by simp [hnl (by omega)])
          have hl' : i + m + b < n → l.isZeroBit (i + m + b) = true := fun hlt =>
            (h (i + m + b) hlt).resolve_right (by simp [hnr (by omega)])
          have hpos : 0 < m + b := by
            by_contra h0
            obtain ⟨rfl, rfl⟩ : m = 0 ∧ b = 0 := by omega
            have hz := hr' hlt
            rw [hnr (by omega)] at hz
            cases hz
          obtain ⟨htiles, hweight⟩ := ih (i := i + m + b) (by omega) (by omega)
          exact ⟨tiles_round (by omega) hpos hzl hzr htiles,
            weight_round (by omega) hr' hl' hweight⟩
      next =>
          obtain rfl : i = n := by omega
          exact ⟨rfl, Nat.zero_le _⟩

/-! ### Putting the pieces together -/

/-- `exprs`, highest first, spell out the low `i` bits of `V`. -/
def Spells (E : Input → Prop) (V : Input → Nat) : List Expr → Nat → Prop
  | [], i => i = 0
  | x :: exprs, i => ∃ j b, i = j + b ∧ x.IsBV b ∧
      (∀ ρ, E ρ → x.value ρ = slice (V ρ) j b) ∧ Spells E V exprs j

/-- What a list of expressions weighs together. -/
def totalWeight (exprs : List Expr) : Nat :=
  (exprs.map weight).sum

section Build

variable {σ : Session} {stops : Prop} {ok : MethodCall → Prop} {E : Input → Prop}
  {this : ExprBuilder}
variable {l r : Expr} {n : Nat} {V : Input → Nat}

/-- The pieces spell out the disjunction of the operands. -/
theorem extractPieces_builds (hl : l.IsBV n) (hr : r.IsBV n)
    (hext : ∀ e i b, e = l ∨ e = r → 0 < b → i + b ≤ n →
      Completes σ stops ok (this.createExtract e i b) ((Call.extract e i b).Meets E true))
    {ps : List Piece} {i : Nat} {acc : List Expr} (hps : Tiles l r n i ps)
    (hacc : Spells E (fun ρ => l.value ρ ||| r.value ρ) acc i) :
    Completes σ stops ok (extractPieces this ps acc) (fun exprs =>
      Spells E (fun ρ => l.value ρ ||| r.value ρ) exprs n ∧
        totalWeight exprs ≤ totalWeight acc + piecesWeight ps ∧
        (l.isConstant = true → r.isConstant = true → (∀ x ∈ acc, x.isConstant = true) →
          ∀ x ∈ exprs, x.isConstant = true)) := by
  induction ps generalizing i acc with
  | nil =>
      obtain rfl : i = n := hps
      exact Terminates.ret ⟨hacc, Nat.le_add_right .., fun _ _ h => h⟩
  | cons p ps ih =>
      obtain ⟨e, j, b⟩ := p
      obtain ⟨rfl, hb, hle, hcase, hps⟩ := hps
      have hel : e = l ∨ e = r := hcase.symm.imp And.left And.left
      have he : e.IsBV n := by rcases hel with rfl | rfl <;> assumption
      refine Terminates.bind (hext e j b hel hb hle) fun x hx => ?_
      rw [Call.meets_extract_iff he hb hle] at hx
      obtain ⟨hx, hv, hw, hk⟩ := hx
      have hspell : Spells E (fun ρ => l.value ρ ||| r.value ρ) (x :: acc) (j + b) := by
        refine ⟨j, b, rfl, hx, fun ρ hρ => (hv ρ hρ).trans ?_, hacc⟩
        rcases hcase with ⟨rfl, hz⟩ | ⟨rfl, hz⟩
        · exact (slice_or_of_zero fun k h₁ h₂ =>
            testBit_of_isZeroBit hl.wellSorted (hz k h₁ h₂) ρ).symm
        · simp only [Nat.or_comm (e.value ρ)]
          exact (slice_or_of_zero fun k h₁ h₂ =>
            testBit_of_isZeroBit hr.wellSorted (hz k h₁ h₂) ρ).symm
      refine (ih hps hspell).mono ?_
      rintro exprs ⟨hexprs, hweight, hconst⟩
      refine ⟨hexprs, ?_, fun hkl hkr hacc => hconst hkl hkr fun y hy => ?_⟩
      · simp only [totalWeight, piecesWeight, List.map_cons, List.sum_cons] at hweight ⊢
        omega
      · rcases List.mem_cons.1 hy with rfl | hy
        · exact hk (by rcases hel with rfl | rfl <;> assumption)
        · exact hacc y hy

theorem createConcatList_builds
    (hcat : ∀ {m n : Nat} {l r : Expr}, l.IsBV m → r.IsBV n →
      Completes σ stops ok (this.createConcat l r) ((Call.concat l r).Meets E true))
    {exprs : List Expr} {e : Expr} {j k : Nat} (he : e.IsBV k)
    (hv : ∀ ρ, E ρ → e.value ρ = slice (V ρ) j k) (hexprs : Spells E V exprs j) :
    Completes σ stops ok (createConcatList this e exprs) (fun x =>
      x.IsBV (k + j) ∧ (∀ ρ, E ρ → x.value ρ = slice (V ρ) 0 (j + k)) ∧
        x.weight ≤ e.weight + totalWeight exprs ∧
        (e.isConstant = true → (∀ y ∈ exprs, y.isConstant = true) → x.isConstant = true)) := by
  induction exprs generalizing e j k with
  | nil =>
      obtain rfl : j = 0 := hexprs
      refine Terminates.ret ⟨he, fun ρ hρ => ?_, Nat.le_refl _, fun h _ => h⟩
      rw [hv ρ hρ, Nat.zero_add]
  | cons y exprs ih =>
      obtain ⟨i, b, rfl, hy, hvy, hexprs⟩ := hexprs
      refine Terminates.bind (hcat he hy) fun x hx => ?_
      rw [Call.meets_concat_iff he hy] at hx
      obtain ⟨hx, hvx, hwx, hkx⟩ := hx
      have hvx' : ∀ ρ, E ρ → x.value ρ = slice (V ρ) i (k + b) := fun ρ hρ => by
        rw [hvx ρ hρ, hv ρ hρ, hvy ρ hρ, append_slices, Nat.add_comm]
      refine (ih hx hvx' hexprs).mono ?_
      rintro z ⟨hz, hvz, hwz, hkz⟩
      refine ⟨?_, fun ρ hρ => ?_, ?_, fun hke hkall => ?_⟩
      · rwa [show k + (i + b) = k + b + i by omega]
      · rw [hvz ρ hρ, show i + (k + b) = i + b + k by omega]
      · simp only [totalWeight, List.map_cons, List.sum_cons] at hwz ⊢
        omega
      · exact hkz (hkx hke (hkall y List.mem_cons_self))
          fun w hw => hkall w (List.mem_cons_of_mem _ hw)

/-- `simplifyExclusiveExpr`, given that pieces of the operands can be extracted and
concatenated. -/
theorem simplifyExclusiveExpr_builds (hl : l.IsBV n) (hr : r.IsBV n)
    (hext : ∀ e i b, e = l ∨ e = r → 0 < b → i + b ≤ n →
      Completes σ stops ok (this.createExtract e i b) ((Call.extract e i b).Meets E true))
    (hcat : ∀ {m n : Nat} {l r : Expr}, l.IsBV m → r.IsBV n →
      Completes σ stops ok (this.createConcat l r) ((Call.concat l r).Meets E true))
    {p : Build Expr} (hp : simplifyExclusiveExpr this l r = some p) :
    Completes σ stops ok p (fun x => x.IsBV n ∧ (∀ ρ, E ρ → x.value ρ = l.value ρ ||| r.value ρ) ∧
      x.weight ≤ l.weight + r.weight ∧
      (l.isConstant = true → r.isConstant = true → x.isConstant = true)) := by
  unfold simplifyExclusiveExpr at hp
  split at hp
  next hexcl =>
      cases hp
      have hfuel : n ≤ 0 + l.bits := by rw [hl.bits]; omega
      obtain ⟨htiles, hweight⟩ :=
        exclusivePieces_spec hl.bits hr.bits hexcl (Nat.zero_le n) hfuel
      have hwl : l.weight = l.weightIn 0 n := by rw [weight, hl.bits]
      have hwr : r.weight = r.weightIn 0 n := by rw [weight, hr.bits]
      refine Terminates.bind (extractPieces_builds hl hr hext htiles rfl) ?_
      rintro exprs ⟨hexprs, hwt, hconst⟩
      cases exprs with
      | nil => exact absurd (show n = 0 from hexprs) (Nat.pos_iff_ne_zero.1 hl.pos)
      | cons e exprs =>
          obtain ⟨j, b, rfl, he, hv, hexprs⟩ := hexprs
          refine (createConcatList_builds hcat he hv hexprs).mono ?_
          rintro x ⟨hx, hvx, hwx, hkx⟩
          refine ⟨Nat.add_comm j b ▸ hx, fun ρ hρ => ?_, ?_, fun hkl hkr => ?_⟩
          · rw [hvx ρ hρ, slice_zero_of_lt]
            exact Nat.or_lt_two_pow (hl.value_lt ρ) (hr.value_lt ρ)
          · simp only [totalWeight, List.map_cons, List.sum_cons, List.map_nil, List.sum_nil] at hwt
            simp only [totalWeight] at hwx
            rw [Nat.sub_zero] at hweight
            omega
          · have hall := hconst hkl hkr (List.forall_mem_nil _)
            exact hkx (hall e List.mem_cons_self)
              fun y hy => hall y (List.mem_cons_of_mem _ hy)
  next => cases hp

theorem exclusive_of_simplifyExclusiveExpr {p : Build Expr}
    (hp : simplifyExclusiveExpr this l r = some p) : exclusive l r = true := by
  unfold simplifyExclusiveExpr at hp
  split at hp
  next h => exact h
  next => cases hp

/-- Exclusive operands add up without a carry. -/
theorem bv_add_of_exclusive (hl : l.IsBV n) (hr : r.IsBV n) (h : exclusive l r = true)
    (ρ : Input) : l.bv ρ n + r.bv ρ n = l.bv ρ n ||| r.bv ρ n := by
  refine BitVec.add_eq_or_of_and_eq_zero _ _ (BitVec.eq_of_getLsbD_eq fun i hi => ?_)
  rw [BitVec.getLsbD_and, ← BitVec.testBit_toNat, ← BitVec.testBit_toNat, hl.toNat_bv, hr.toNat_bv]
  rcases exclusive_iff.1 h i (hl.bits.symm ▸ hi) with hz | hz
  · simp [testBit_of_isZeroBit hl.wellSorted hz ρ]
  · simp [testBit_of_isZeroBit hr.wellSorted hz ρ]

end Build

end Qsym.SymbolicExprBuilder
