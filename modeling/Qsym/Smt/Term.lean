import Mathlib.Data.BitVec

/-!
# Qsym.Smt.Term

Terms of **quantifier-free bit vectors** as SMT-LIB has them, with their meaning.
Symbols are numbered and stand for bit vectors. A term denotes a boolean or a bit
vector, and `Term.eval` gives nothing for a term that is not well-sorted, so a
statement that a term evaluates says that it is.

Division by zero is total: `bvudiv` gives all ones and `bvurem` the dividend, and
the signed operations are defined from these by signs.
-/

namespace Smt

/-- Operations on two bit vectors of one width. -/
inductive BVOp
  | bvadd | bvsub | bvmul | bvudiv | bvsdiv | bvurem | bvsrem
  | bvand | bvor | bvxor | bvshl | bvlshr | bvashr
  deriving DecidableEq, Repr

/-- Orders on bit vectors of one width. -/
inductive BVPred
  | bvult | bvule | bvugt | bvuge | bvslt | bvsle | bvsgt | bvsge
  deriving DecidableEq, Repr

/-- Boolean connectives. -/
inductive BoolOp
  | and | or
  deriving DecidableEq, Repr

inductive Term
  | bool (b : Bool)
  | bv (n : Nat) (v : BitVec n)
  /-- The symbol `i` of width `n`. -/
  | symbol (i n : Nat)
  | concat (a b : Term)
  | extract (hi lo : Nat) (a : Term)
  | zeroExtend (k : Nat) (a : Term)
  | signExtend (k : Nat) (a : Term)
  | bvnot (a : Term)
  | bvneg (a : Term)
  | bvop (op : BVOp) (a b : Term)
  | bvpred (p : BVPred) (a b : Term)
  | eq (a b : Term)
  | distinct (a b : Term)
  | not (a : Term)
  | boolop (op : BoolOp) (a b : Term)
  | ite (c a b : Term)
  deriving DecidableEq, Repr

/-- What a term denotes. -/
inductive Value
  | bool (b : Bool)
  | bv (n : Nat) (v : BitVec n)
  deriving DecidableEq, Repr

/-- Bit vectors are equal when their widths and their numbers are. -/
theorem Value.bv_congr {n m : Nat} {v : BitVec n} {w : BitVec m} (hn : n = m)
    (h : v.toNat = w.toNat) : Value.bv n v = Value.bv m w := by
  subst hn
  rw [BitVec.eq_of_toNat_eq h]

def BVOp.apply {n : Nat} : BVOp → BitVec n → BitVec n → BitVec n
  | bvadd, v, w => v + w
  | bvsub, v, w => v - w
  | bvmul, v, w => v * w
  | bvudiv, v, w => v.smtUDiv w
  | bvsdiv, v, w => v.smtSDiv w
  | bvurem, v, w => v.umod w
  | bvsrem, v, w => v.srem w
  | bvand, v, w => v &&& w
  | bvor, v, w => v ||| w
  | bvxor, v, w => v ^^^ w
  | bvshl, v, w => v <<< w
  | bvlshr, v, w => v >>> w
  | bvashr, v, w => v.sshiftRight' w

def BVPred.holds {n : Nat} : BVPred → BitVec n → BitVec n → Bool
  | bvult, v, w => v.ult w
  | bvule, v, w => v.ule w
  | bvugt, v, w => w.ult v
  | bvuge, v, w => w.ule v
  | bvslt, v, w => v.slt w
  | bvsle, v, w => v.sle w
  | bvsgt, v, w => w.slt v
  | bvsge, v, w => w.sle v

def BoolOp.apply : BoolOp → Bool → Bool → Bool
  | and, a, b => a && b
  | or, a, b => a || b

namespace Value

/-- Equality of values of one sort. -/
def eq? : Value → Value → Option Bool
  | bool a, bool b => some (a == b)
  | bv n v, bv m w => if h : m = n then some (v == w.cast h) else none
  | _, _ => none

def not? : Value → Option Value
  | bool a => some (bool !a)
  | _ => none

def boolop? (op : BoolOp) : Value → Value → Option Value
  | bool a, bool b => some (bool (op.apply a b))
  | _, _ => none

def bvop? (op : BVOp) : Value → Value → Option Value
  | bv n v, bv m w => if h : m = n then some (bv n (op.apply v (w.cast h))) else none
  | _, _ => none

def bvpred? (p : BVPred) : Value → Value → Option Value
  | bv n v, bv m w => if h : m = n then some (bool (p.holds v (w.cast h))) else none
  | _, _ => none

/-- An operation on one bit vector. -/
def bvmap? (m : Nat → Nat) (f : (n : Nat) → BitVec n → BitVec (m n)) : Value → Option Value
  | bv n v => some (bv (m n) (f n v))
  | _ => none

def concat? : Value → Value → Option Value
  | bv n v, bv m w => some (bv (n + m) (v ++ w))
  | _, _ => none

def extract? (hi lo : Nat) : Value → Option Value
  | bv n v => if lo ≤ hi ∧ hi < n then some (bv (hi - lo + 1) (v.extractLsb hi lo)) else none
  | _ => none

def sameSort : Value → Value → Bool
  | bool _, bool _ => true
  | bv n _, bv m _ => n = m
  | _, _ => false

def ite? : Value → Value → Value → Option Value
  | bool c, a, b => if a.sameSort b then some (if c then a else b) else none
  | _, _, _ => none

section

variable {n : Nat} (v w : BitVec n) (a b : Bool)

@[simp] theorem eq?_bv : eq? (bv n v) (bv n w) = some (v == w) := by simp [eq?]
@[simp] theorem eq?_bool : eq? (bool a) (bool b) = some (a == b) := rfl
@[simp] theorem not?_bool : not? (bool a) = some (bool !a) := rfl
@[simp] theorem boolop?_bool (op : BoolOp) :
    boolop? op (bool a) (bool b) = some (bool (op.apply a b)) := rfl
@[simp] theorem bvop?_bv (op : BVOp) : bvop? op (bv n v) (bv n w) = some (bv n (op.apply v w)) := by
  simp [bvop?]
@[simp] theorem bvpred?_bv (p : BVPred) :
    bvpred? p (bv n v) (bv n w) = some (bool (p.holds v w)) := by
  simp [bvpred?]
@[simp] theorem bvmap?_bv (m : Nat → Nat) (f : (n : Nat) → BitVec n → BitVec (m n)) :
    bvmap? m f (bv n v) = some (bv (m n) (f n v)) := rfl
@[simp] theorem concat?_bv {m : Nat} (u : BitVec m) :
    concat? (bv n v) (bv m u) = some (bv (n + m) (v ++ u)) := rfl
@[simp] theorem ite?_bv : ite? (bool a) (bv n v) (bv n w) = some (bv n (if a then v else w)) := by
  cases a <;> simp [ite?, sameSort]
@[simp] theorem ite?_bool (c : Bool) :
    ite? (bool c) (bool a) (bool b) = some (bool (if c then a else b)) := by
  cases c <;> simp [ite?, sameSort]

theorem extract?_bv {hi lo : Nat} (h : lo ≤ hi) (hn : hi < n) :
    extract? hi lo (bv n v) = some (bv (hi - lo + 1) (v.extractLsb hi lo)) :=
  if_pos ⟨h, hn⟩

end

end Value

/-- The value of a term, if it is well-sorted. -/
def Term.eval (ρ : (i n : Nat) → BitVec n) : Term → Option Value
  | bool b => some (.bool b)
  | bv n v => some (.bv n v)
  | symbol i n => some (.bv n (ρ i n))
  | concat a b => do (← a.eval ρ).concat? (← b.eval ρ)
  | extract hi lo a => do (← a.eval ρ).extract? hi lo
  | zeroExtend k a => do (← a.eval ρ).bvmap? (· + k) fun n v => v.setWidth (n + k)
  | signExtend k a => do (← a.eval ρ).bvmap? (· + k) fun n v => v.signExtend (n + k)
  | bvnot a => do (← a.eval ρ).bvmap? id fun _ v => ~~~v
  | bvneg a => do (← a.eval ρ).bvmap? id fun _ v => -v
  | bvop op a b => do (← a.eval ρ).bvop? op (← b.eval ρ)
  | bvpred p a b => do (← a.eval ρ).bvpred? p (← b.eval ρ)
  | eq a b => do return .bool (← (← a.eval ρ).eq? (← b.eval ρ))
  | distinct a b => do return .bool !(← (← a.eval ρ).eq? (← b.eval ρ))
  | not a => do (← a.eval ρ).not?
  | boolop op a b => do (← a.eval ρ).boolop? op (← b.eval ρ)
  | ite c a b => do (← c.eval ρ).ite? (← a.eval ρ) (← b.eval ρ)

/-- The symbols of a term, with their widths. -/
def Term.symbols : Term → List (Nat × Nat)
  | bool _ | bv _ _ => []
  | symbol i n => [(i, n)]
  | extract _ _ a | zeroExtend _ a | signExtend _ a | bvnot a | bvneg a | not a => a.symbols
  | concat a b | bvop _ a b | bvpred _ a b | eq a b | distinct a b | boolop _ a b =>
      a.symbols ++ b.symbols
  | ite c a b => c.symbols ++ (a.symbols ++ b.symbols)

/-- A term without operands. -/
def Term.isConst : Term → Bool
  | bool _ | bv _ _ | symbol _ _ => true
  | _ => false

/-- The value of a term depends on its symbols alone. -/
theorem Term.eval_congr {ρ ρ' : (i n : Nat) → BitVec n} {t : Term}
    (h : ∀ s ∈ t.symbols, ρ s.1 s.2 = ρ' s.1 s.2) : t.eval ρ = t.eval ρ' := by
  induction t with
  | bool | bv => rfl
  | symbol i n => simp only [eval, h (i, n) List.mem_cons_self]
  | extract _ _ a ih | zeroExtend _ a ih | signExtend _ a ih | bvnot a ih | bvneg a ih
  | not a ih => simp only [eval, ih h]
  | concat a b iha ihb | bvop _ a b iha ihb | bvpred _ a b iha ihb | eq a b iha ihb
  | distinct a b iha ihb | boolop _ a b iha ihb =>
      simp only [symbols, List.forall_mem_append] at h
      simp only [eval, iha h.1, ihb h.2]
  | ite c a b ihc iha ihb =>
      simp only [symbols, List.forall_mem_append] at h
      simp only [eval, ihc h.1, iha h.2.1, ihb h.2.2]

end Smt
