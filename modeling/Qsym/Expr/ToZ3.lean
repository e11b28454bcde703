import Qsym.Expr.Agrees
import Qsym.Expr.Deps
import Qsym.Smt.Term

/-!
# Qsym.Expr.ToZ3

`toZ3Expr`, the translation of expressions into solver terms, and its meaning:
a well-sorted expression becomes a well-sorted term, and the term denotes the value
that `Expr.value` gives (`toZ3Expr_eval`).
-/

namespace Qsym

open Smt Bits

/-- `toZ3ExprRecursively` of the unary classes. -/
def UnaryKind.toZ3Expr : UnaryKind → Term → Term
  | neg, a => .bvneg a
  | not, a => .bvnot a
  | lnot, a => .not a

/-- `toZ3ExprRecursively` of the arithmetic, bitwise, shift and logical classes. -/
def BinaryKind.toZ3Expr : BinaryKind → Term → Term → Term
  | add, a, b => .bvop .bvadd a b
  | sub, a, b => .bvop .bvsub a b
  | mul, a, b => .bvop .bvmul a b
  | udiv, a, b => .bvop .bvudiv a b
  | sdiv, a, b => .bvop .bvsdiv a b
  | urem, a, b => .bvop .bvurem a b
  | srem, a, b => .bvop .bvsrem a b
  | and, a, b => .bvop .bvand a b
  | or, a, b => .bvop .bvor a b
  | xor, a, b => .bvop .bvxor a b
  | shl, a, b => .bvop .bvshl a b
  | lshr, a, b => .bvop .bvlshr a b
  | ashr, a, b => .bvop .bvashr a b
  | lor, a, b => .boolop .or a b
  | land, a, b => .boolop .and a b

/-- `toZ3ExprRecursively` of the comparisons. -/
def CompareKind.toZ3Expr : CompareKind → Term → Term → Term
  | equal, a, b => .eq a b
  | distinct, a, b => .distinct a b
  | ult, a, b => .bvpred .bvult a b
  | ule, a, b => .bvpred .bvule a b
  | ugt, a, b => .bvpred .bvugt a b
  | uge, a, b => .bvpred .bvuge a b
  | slt, a, b => .bvpred .bvslt a b
  | sle, a, b => .bvpred .bvsle a b
  | sgt, a, b => .bvpred .bvsgt a b
  | sge, a, b => .bvpred .bvsge a b

namespace Expr

/-- `toZ3Expr`. The symbol of an input byte is its index. -/
def toZ3Expr : Expr → Term
  | bool _ b => .bool b
  | constant _ n v => .bv n v
  | read i => .symbol i 8
  | concat _ l r => .concat l.toZ3Expr r.toZ3Expr
  | extract _ e index bits => .extract (index + bits - 1) index e.toZ3Expr
  | ext _ .zext e bits => .zeroExtend (bits - e.bits) e.toZ3Expr
  | ext _ .sext e bits => .signExtend (bits - e.bits) e.toZ3Expr
  | unary _ k e => k.toZ3Expr e.toZ3Expr
  | binary _ k l r => k.toZ3Expr l.toZ3Expr r.toZ3Expr
  | compare _ k l r => k.toZ3Expr l.toZ3Expr r.toZ3Expr
  | ite _ c t f => .ite c.toZ3Expr t.toZ3Expr f.toZ3Expr

/-- The symbols under the input `ρ`. -/
def symbols (ρ : Input) (i n : Nat) : BitVec n :=
  (ρ i).setWidth n

/-- The value of an expression, with its sort. -/
def denote (ρ : Input) (e : Expr) : Value :=
  if e.isBoolean then .bool (e.truth ρ) else .bv e.bits (e.bv ρ e.bits)

/-- What `checkExpr` lets pass. -/
def isLiteral : Expr → Bool
  | .constant .. | .bool .. => true
  | _ => false

variable {e l r : Expr} {n : Nat} {ρ : Input}

theorem IsBV.denote (h : e.IsBV n) : e.denote ρ = .bv n (e.bv ρ n) := by
  rw [Expr.denote, h.isBoolean, h.bits]
  rfl

theorem IsBool.denote (h : e.IsBool) : e.denote ρ = .bool (e.truth ρ) := by
  rw [Expr.denote, h.isBoolean]
  rfl

/-- A value of the right width and number is what a bit vector denotes. -/
theorem IsBV.eq_denote (h : e.IsBV n) {m : Nat} {v : BitVec m} (hm : m = n)
    (hv : v.toNat = e.value ρ) : .bv m v = e.denote ρ := by
  rw [h.denote]
  exact Value.bv_congr hm (hv.trans (h.toNat_bv ρ).symm)

theorem eval_unary {ref : Nat} {k : UnaryKind} (h : (unary ref k e).WellSorted)
    (he : e.toZ3Expr.eval (symbols ρ) = some (e.denote ρ)) :
    (k.toZ3Expr e.toZ3Expr).eval (symbols ρ) = some ((unary ref k e).denote ρ) := by
  obtain ⟨hw, hb⟩ := id h
  cases k with
  | lnot =>
      have hbool : e.IsBool := ⟨hw, hb⟩
      simp [UnaryKind.toZ3Expr, Term.eval, he, hbool.denote, (isBool_lnot hbool ref).denote,
        truth_lnot hbool ref]
  | neg | not =>
      have hbv : e.IsBV e.bits := ⟨hw, hb, rfl⟩
      have hu : IsBV e.bits (unary ref _ e) := ⟨h, rfl, rfl⟩
      simp [UnaryKind.toZ3Expr, Term.eval, he, hbv.denote, hu.denote, bv_unary ρ ref _ rfl,
        UnaryKind.apply]

theorem eval_binary {ref : Nat} {k : BinaryKind} (h : (binary ref k l r).WellSorted)
    (hl : l.toZ3Expr.eval (symbols ρ) = some (l.denote ρ))
    (hr : r.toZ3Expr.eval (symbols ρ) = some (r.denote ρ)) :
    (k.toZ3Expr l.toZ3Expr r.toZ3Expr).eval (symbols ρ) = some ((binary ref k l r).denote ρ) := by
  by_cases hk : k.isLogical = true
  · obtain ⟨hlb, hrb⟩ := (wellSorted_logical_iff hk).1 h
    rw [(isBool_binary hk hlb hrb ref).denote]
    cases k with
    | land =>
        simp [BinaryKind.toZ3Expr, Term.eval, hl, hr, hlb.denote, hrb.denote, truth_land hlb hrb,
          BoolOp.apply]
    | lor =>
        simp [BinaryKind.toZ3Expr, Term.eval, hl, hr, hlb.denote, hrb.denote, truth_lor hlb hrb,
          BoolOp.apply]
    | _ => cases hk
  · have hk : k.isLogical = false := by simpa using hk
    obtain ⟨n, hlb, hrb⟩ := (wellSorted_binary_iff hk).1 h
    rw [(isBV_binary hk hlb hrb ref).denote, bv_binary ρ ref k hlb.bits]
    cases k with
    | lor | land => cases hk
    | _ =>
        simp [BinaryKind.toZ3Expr, Term.eval, hl, hr, hlb.denote, hrb.denote, BVOp.apply,
          BinaryKind.apply, BitVec.umod_eq]

theorem eval_compare {ref : Nat} {k : CompareKind} (h : (compare ref k l r).WellSorted)
    (hl : l.toZ3Expr.eval (symbols ρ) = some (l.denote ρ))
    (hr : r.toZ3Expr.eval (symbols ρ) = some (r.denote ρ)) :
    (k.toZ3Expr l.toZ3Expr r.toZ3Expr).eval (symbols ρ) =
      some ((compare ref k l r).denote ρ) := by
  have hc : (compare ref k l r).IsBool := ⟨h, rfl⟩
  obtain ⟨hlw, hrw, hb, hbb, hk⟩ := h
  rw [hc.denote]
  by_cases hlb : l.isBoolean = true
  · have hlb : l.IsBool := ⟨hlw, hlb⟩
    have hrb : r.IsBool := ⟨hrw, hbb.symm.trans hlb.isBoolean⟩
    have heq : (BitVec.ofBool (l.truth ρ) == BitVec.ofBool (r.truth ρ)) =
        (l.truth ρ == r.truth ρ) := by
      cases l.truth ρ <;> cases r.truth ρ <;> rfl
    rw [truth_compare hlb.bits, hlb.bv_eq, hrb.bv_eq]
    cases k with
    | equal =>
        simp [CompareKind.toZ3Expr, Term.eval, hl, hr, hlb.denote, hrb.denote, CompareKind.holds,
          heq]
    | distinct =>
        simp [CompareKind.toZ3Expr, Term.eval, hl, hr, hlb.denote, hrb.denote, CompareKind.holds,
          bne, heq]
    | _ => exact absurd hlb.isBoolean (by simp [hk rfl])
  · have hlb : l.IsBV l.bits := ⟨hlw, by simpa using hlb, rfl⟩
    have hrb : r.IsBV l.bits := ⟨hrw, hbb.symm.trans hlb.isBoolean, hb.symm⟩
    rw [truth_compare rfl]
    cases k <;>
    · simp [CompareKind.toZ3Expr, Term.eval, hl, hr, hlb.denote, hrb.denote, CompareKind.holds,
        BVPred.holds, bne]

theorem eval_ext {ref b : Nat} {k : ExtKind} (h : (ext ref k e b).WellSorted)
    (he : e.toZ3Expr.eval (symbols ρ) = some (e.denote ρ)) :
    (ext ref k e b).toZ3Expr.eval (symbols ρ) = some ((ext ref k e b).denote ρ) := by
  obtain ⟨hw, hb, hle⟩ := id h
  have hbv : e.IsBV e.bits := ⟨hw, hb, rfl⟩
  have hx : IsBV b (ext ref k e b) := ⟨h, rfl, rfl⟩
  have hbits : e.bits + (b - e.bits) = b := by omega
  cases k with
  | zext =>
      simp only [toZ3Expr, Term.eval, he, hbv.denote, Option.bind_eq_bind, Option.bind_some,
        Value.bvmap?_bv]
      refine congrArg some (hx.eq_denote hbits ?_)
      rw [hbits]
      rfl
  | sext =>
      simp only [toZ3Expr, Term.eval, he, hbv.denote, Option.bind_eq_bind, Option.bind_some,
        Value.bvmap?_bv]
      refine congrArg some (hx.eq_denote hbits ?_)
      rw [hbits]
      rfl

theorem eval_ite {ref : Nat} {c t f : Expr} (h : (ite ref c t f).WellSorted)
    (hc : c.toZ3Expr.eval (symbols ρ) = some (c.denote ρ))
    (ht : t.toZ3Expr.eval (symbols ρ) = some (t.denote ρ))
    (hf : f.toZ3Expr.eval (symbols ρ) = some (f.denote ρ)) :
    (ite ref c t f).toZ3Expr.eval (symbols ρ) = some ((ite ref c t f).denote ρ) := by
  obtain ⟨hcw, htw, hfw, hcb, htf, hb⟩ := id h
  have hcb : c.IsBool := ⟨hcw, hcb⟩
  have hv : (ite ref c t f).value ρ = if c.truth ρ then t.value ρ else f.value ρ :=
    value_ite ref c t f
  by_cases htb : t.isBoolean = true
  · have htb : t.IsBool := ⟨htw, htb⟩
    have hfb : f.IsBool := ⟨hfw, htf.symm.trans htb.isBoolean⟩
    have hi : (ite ref c t f).IsBool := ⟨h, htb.isBoolean⟩
    have htruth : (ite ref c t f).truth ρ = if c.truth ρ then t.truth ρ else f.truth ρ := by
      rw [truth, hv]
      cases c.truth ρ <;> rfl
    simp [hi.denote, htruth, toZ3Expr, Term.eval, hc, ht, hf, hcb.denote, htb.denote, hfb.denote]
  · have htb : t.IsBV t.bits := ⟨htw, by simpa using htb, rfl⟩
    have hfb : f.IsBV t.bits := ⟨hfw, htf.symm.trans htb.isBoolean, hb.symm⟩
    have hi : (ite ref c t f).IsBV t.bits := ⟨h, htb.isBoolean, rfl⟩
    rw [hi.denote, bv, hv]
    cases hct : c.truth ρ <;>
    · simp [toZ3Expr, Term.eval, hc, ht, hf, hcb.denote, htb.denote, hfb.denote, hct, bv]

/-- The symbols of the term are the input bytes of the expression. -/
theorem toZ3Expr_symbols {x : Nat × Nat} (h : x ∈ e.toZ3Expr.symbols) :
    x.2 = 8 ∧ x.1 ∈ e.getDeps := by
  induction e with
  | bool | constant => cases h
  | read i =>
      obtain rfl := List.mem_singleton.1 h
      exact ⟨rfl, Finset.mem_singleton_self i⟩
  | extract _ _ _ _ ih => exact ih h
  | ext _ k _ _ ih => cases k <;> exact ih h
  | unary _ k _ ih => cases k <;> exact ih h
  | concat _ l r ihl ihr =>
      rw [getDeps, Finset.mem_union]
      exact (List.mem_append.1 h).elim (fun h => (ihl h).imp_right .inl)
        fun h => (ihr h).imp_right .inr
  | binary _ k l r ihl ihr =>
      have h : x ∈ l.toZ3Expr.symbols ++ r.toZ3Expr.symbols := by cases k <;> exact h
      rw [getDeps, Finset.mem_union]
      exact (List.mem_append.1 h).elim (fun h => (ihl h).imp_right .inl)
        fun h => (ihr h).imp_right .inr
  | compare _ k l r ihl ihr =>
      have h : x ∈ l.toZ3Expr.symbols ++ r.toZ3Expr.symbols := by cases k <;> exact h
      rw [getDeps, Finset.mem_union]
      exact (List.mem_append.1 h).elim (fun h => (ihl h).imp_right .inl)
        fun h => (ihr h).imp_right .inr
  | ite _ c t f ihc iht ihf =>
      rw [getDeps, Finset.mem_union, Finset.mem_union, or_assoc]
      rcases List.mem_append.1 h with h | h
      · exact (ihc h).imp_right .inl
      · exact (List.mem_append.1 h).elim (fun h => (iht h).imp_right fun h => .inr (.inl h))
          fun h => (ihf h).imp_right fun h => .inr (.inr h)

/-- The term of a truth value has no operands when it is a literal. -/
theorem isConst_toZ3Expr (h : e.isBoolean = true) : e.toZ3Expr.isConst = e.isLiteral := by
  cases e with
  | constant | read | concat | extract | ext => cases h
  | unary _ k _ => cases k <;> rfl
  | binary _ k _ _ => cases k <;> rfl
  | compare _ k _ _ => cases k <;> rfl
  | bool | ite => rfl

/-- **The translation is right**: the term of a well-sorted expression is well-sorted
and denotes the value of the expression. -/
theorem toZ3Expr_eval (h : e.WellSorted) (ρ : Input) :
    e.toZ3Expr.eval (symbols ρ) = some (e.denote ρ) := by
  induction e with
  | bool ref b => simp [toZ3Expr, Term.eval, (isBool_bool ref b).denote]
  | constant ref n v => simp [toZ3Expr, Term.eval, (isBV_constant h ref v).denote]
  | read i =>
      have hr : (read i).IsBV 8 := ⟨trivial, rfl, rfl⟩
      exact congrArg some (hr.eq_denote rfl (by simp [symbols, value]))
  | concat ref l r ihl ihr =>
      obtain ⟨hl, hr, hlb, hrb⟩ := id h
      have hlb : l.IsBV l.bits := ⟨hl, hlb, rfl⟩
      have hrb : r.IsBV r.bits := ⟨hr, hrb, rfl⟩
      simp only [toZ3Expr, Term.eval, ihl hl, ihr hr, hlb.denote, hrb.denote,
        Option.bind_eq_bind, Option.bind_some, Value.concat?_bv]
      refine congrArg some ((isBV_concat hlb hrb ref).eq_denote rfl ?_)
      rw [BitVec.toNat_append, hlb.toNat_bv, hrb.toNat_bv, value, Nat.shiftLeft_eq, Nat.mul_comm,
        Nat.two_pow_add_eq_or_of_lt (hrb.value_lt ρ)]
  | extract ref e i b ih =>
      obtain ⟨he, heb, hb, hle⟩ := id h
      have heb : e.IsBV e.bits := ⟨he, heb, rfl⟩
      simp only [toZ3Expr, Term.eval, ih he, heb.denote, Option.bind_eq_bind, Option.bind_some]
      rw [Value.extract?_bv _ (by omega) (by omega)]
      refine congrArg some ((isBV_extract heb hb hle ref).eq_denote (by omega) ?_)
      rw [BitVec.extractLsb_toNat, heb.toNat_bv, value, slice, Nat.shiftRight_eq_div_pow,
        show i + b - 1 - i + 1 = b by omega]
  | ext ref k e b ih => exact eval_ext h (ih h.1)
  | unary ref k e ih => exact eval_unary h (ih h.1)
  | binary ref k l r ihl ihr => exact eval_binary h (ihl h.1) (ihr h.2.1)
  | compare ref k l r ihl ihr => exact eval_compare h (ihl h.1) (ihr h.2.1)
  | ite ref c t f ihc iht ihf => exact eval_ite h (ihc h.1) (iht h.2.1) (ihf h.2.2.1)

end Expr

end Qsym
