import Mathlib.Logic.Basic

/-!
# Qsym.Expr.Basic

The **expression nodes** of the engine: `Expr` and its subclasses, with the pure
scans the builders run over them.

The C++ node hierarchy is one inductive type. A family of subclasses that differ
only in their kind (`AddExpr`, `SubExpr`, … all derive from `BinaryExpr`) is one
constructor over a kind. Nodes are shared objects, and the builders compare them
by address, so a node carries the identity `ref` under which it was allocated:
two pointers are equal when the trees, identities included, are equal. A read
node is unique per offset (`BaseExprBuilder::createRead` keeps one for each), so
its offset is its identity.

The caches inside a node (hash, depth, Z3 term, memoised evaluation, leading
zeros) hold values determined by the node and are not part of the model.
-/

namespace Qsym

/-- Kinds of `UnaryExpr` whose width is their operand's. -/
inductive UnaryKind
  | neg | not | lnot
  deriving DecidableEq, Repr

/-- Kinds of `ExtExpr`. -/
inductive ExtKind
  | zext | sext
  deriving DecidableEq, Repr

/-- Kinds of `BinaryExpr` whose width is their operands'. -/
inductive BinaryKind
  | add | sub | mul | udiv | sdiv | urem | srem
  | and | or | xor | shl | lshr | ashr
  | lor | land
  deriving DecidableEq, Repr

/-- Kinds of `CompareExpr`. -/
inductive CompareKind
  | equal | distinct | ult | ule | ugt | uge | slt | sle | sgt | sge
  deriving DecidableEq, Repr

/-- `LNot` takes and gives a boolean. -/
def UnaryKind.isLogical : UnaryKind → Bool
  | lnot => true
  | _ => false

/-- `LOr` and `LAnd` take and give booleans. -/
def BinaryKind.isLogical : BinaryKind → Bool
  | lor | land => true
  | _ => false

/-- Kinds that divide their left operand by their right one. -/
def BinaryKind.isDivision : BinaryKind → Bool
  | udiv | sdiv | urem | srem => true
  | _ => false

/-- `Equal` and `Distinct` also compare booleans, the other kinds only bit vectors. -/
def CompareKind.comparesBooleans : CompareKind → Bool
  | equal | distinct => true
  | _ => false

/-- Expression nodes. Every field but `ref` is the field of the C++ class. -/
inductive Expr
  /-- `BoolExpr` -/
  | bool (ref : Nat) (value : Bool)
  /-- `ConstantExpr` -/
  | constant (ref : Nat) (bits : Nat) (value : BitVec bits)
  /-- `ReadExpr`: the input byte at `index`. -/
  | read (index : Nat)
  /-- `ConcatExpr` -/
  | concat (ref : Nat) (l r : Expr)
  /-- `ExtractExpr`: `bits` bits of `e` from `index` on. -/
  | extract (ref : Nat) (e : Expr) (index bits : Nat)
  /-- `ZExtExpr`, `SExtExpr` -/
  | ext (ref : Nat) (kind : ExtKind) (e : Expr) (bits : Nat)
  /-- `NegExpr`, `NotExpr`, `LNotExpr` -/
  | unary (ref : Nat) (kind : UnaryKind) (e : Expr)
  /-- The arithmetic, bitwise, shift and logical `BinaryExpr`s. -/
  | binary (ref : Nat) (kind : BinaryKind) (l r : Expr)
  /-- `CompareExpr` -/
  | compare (ref : Nat) (kind : CompareKind) (l r : Expr)
  /-- `IteExpr` -/
  | ite (ref : Nat) (cond t f : Expr)
  deriving DecidableEq, Repr

namespace Expr

/-- `Expr::bits`, as the constructors of the subclasses set it. -/
def bits : Expr → Nat
  | bool _ _ => 1
  | constant _ n _ => n
  | read _ => 8
  | concat _ l r => l.bits + r.bits
  | extract _ _ _ b => b
  | ext _ _ _ b => b
  | unary _ _ e => e.bits
  | binary _ _ l _ => l.bits
  | compare _ _ _ _ => 1
  | ite _ _ t _ => t.bits

/-- Whether the node denotes a truth value (its Z3 sort is `Bool`). -/
def isBoolean : Expr → Bool
  | bool _ _ => true
  | unary _ k _ => k.isLogical
  | binary _ k _ _ => k.isLogical
  | compare _ _ _ _ => true
  | ite _ _ t _ => t.isBoolean
  | _ => false

/-- Well-sorted expressions: the operand widths agree where Z3 wants them to, and
every width is positive. -/
def WellSorted : Expr → Prop
  | bool _ _ => True
  | constant _ n _ => 0 < n
  | read _ => True
  | concat _ l r =>
      l.WellSorted ∧ r.WellSorted ∧ l.isBoolean = false ∧ r.isBoolean = false
  | extract _ e i b => e.WellSorted ∧ e.isBoolean = false ∧ 0 < b ∧ i + b ≤ e.bits
  | ext _ _ e b => e.WellSorted ∧ e.isBoolean = false ∧ e.bits ≤ b
  | unary _ k e => e.WellSorted ∧ e.isBoolean = k.isLogical
  | binary _ k l r =>
      l.WellSorted ∧ r.WellSorted ∧ l.bits = r.bits ∧
        l.isBoolean = k.isLogical ∧ r.isBoolean = k.isLogical
  | compare _ k l r =>
      l.WellSorted ∧ r.WellSorted ∧ l.bits = r.bits ∧ l.isBoolean = r.isBoolean ∧
        (k.comparesBooleans = false → l.isBoolean = false)
  | ite _ c t f =>
      c.WellSorted ∧ t.WellSorted ∧ f.WellSorted ∧ c.isBoolean = true ∧
        t.isBoolean = f.isBoolean ∧ t.bits = f.bits

instance decidableWellSorted : (e : Expr) → Decidable e.WellSorted
  | bool _ _ => inferInstanceAs (Decidable True)
  | constant _ n _ => inferInstanceAs (Decidable (0 < n))
  | read _ => inferInstanceAs (Decidable True)
  | concat _ l r =>
      have := decidableWellSorted l
      have := decidableWellSorted r
      inferInstanceAs (Decidable (_ ∧ _ ∧ _ ∧ _))
  | extract _ e _ _ =>
      have := decidableWellSorted e
      inferInstanceAs (Decidable (_ ∧ _ ∧ _ ∧ _))
  | ext _ _ e _ =>
      have := decidableWellSorted e
      inferInstanceAs (Decidable (_ ∧ _ ∧ _))
  | unary _ _ e =>
      have := decidableWellSorted e
      inferInstanceAs (Decidable (_ ∧ _))
  | binary _ _ l r =>
      have := decidableWellSorted l
      have := decidableWellSorted r
      inferInstanceAs (Decidable (_ ∧ _ ∧ _ ∧ _ ∧ _))
  | compare _ _ l r =>
      have := decidableWellSorted l
      have := decidableWellSorted r
      inferInstanceAs (Decidable (_ ∧ _ ∧ _ ∧ _ ∧ _))
  | ite _ c t f =>
      have := decidableWellSorted c
      have := decidableWellSorted t
      have := decidableWellSorted f
      inferInstanceAs (Decidable (_ ∧ _ ∧ _ ∧ _ ∧ _ ∧ _))

/-- Every width is positive. -/
theorem WellSorted.bits_pos {e : Expr} (h : e.WellSorted) : 0 < e.bits := by
  induction e with
  | bool => exact Nat.one_pos
  | constant => exact h
  | read => exact Nat.succ_pos 7
  | concat _ l r ihl _ => exact Nat.add_pos_left (ihl h.1) _
  | extract => exact h.2.2.1
  | ext _ _ e b ih => exact Nat.lt_of_lt_of_le (ih h.1) h.2.2
  | unary _ _ e ih => exact ih h.1
  | binary _ _ l r ihl _ => exact ihl h.1
  | compare => exact Nat.one_pos
  | ite _ c t f _ iht _ => exact iht h.2.1

/-- A truth value is one bit wide. -/
theorem WellSorted.bits_of_isBoolean {e : Expr} (h : e.WellSorted) (hb : e.isBoolean = true) :
    e.bits = 1 := by
  induction e with
  | bool | compare => rfl
  | constant | read | concat | extract | ext => simp [isBoolean] at hb
  | unary _ k e ih => exact ih h.1 (h.2.trans hb)
  | binary _ k l r ihl _ => exact ihl h.1 (h.2.2.2.1.trans hb)
  | ite _ c t f _ iht _ => exact iht h.2.1 hb

/-! ### Class tests and scans -/

/-- `ConstantExpr::classOf` -/
def isConstant : Expr → Bool
  | constant .. => true
  | _ => false

/-- `Expr::isZero` -/
def isZero : Expr → Bool
  | constant _ _ v => v == 0
  | _ => false

/-- `Expr::isOne` -/
def isOne : Expr → Bool
  | constant _ _ v => v == 1
  | _ => false

/-- `Expr::isAllOnes` -/
def isAllOnes : Expr → Bool
  | constant _ n v => v == BitVec.allOnes n
  | _ => false

/-- `isZeroBit`: bit `idx` is zero by the constants in the concatenation tree. -/
def isZeroBit : Expr → Nat → Bool
  | constant _ _ v, idx => !v.getLsbD idx
  | concat _ l r, idx =>
      if r.bits ≤ idx then l.isZeroBit (idx - r.bits) else r.isZeroBit idx
  | _, _ => false

/-- `APInt::getActiveBits` -/
def getActiveBits {n : Nat} (v : BitVec n) : Nat :=
  n - v.clz.toNat

/-- `Expr::countLeadingZeros` -/
def countLeadingZeros : Expr → Nat
  | constant _ _ v => v.clz.toNat
  | concat _ l r =>
      let result := l.countLeadingZeros
      if result = l.bits then result + r.countLeadingZeros else result
  | ext _ .zext e b => b - e.bits
  | _ => 0

/-- `canEvaluateTruncated`. The recursive calls of the source pass `depth + 1` in
the place of the width, so a nested scan always runs at width one and depth zero
and the depth bound never applies. -/
def canEvaluateTruncated : Expr → Nat → Bool
  | binary _ .mul l r, _ => l.canEvaluateTruncated 1 && r.canEvaluateTruncated 1
  | binary _ .udiv l r, b | binary _ .urem l r, b =>
      if l.bits - b ≤ l.countLeadingZeros ∧ l.bits - b ≤ r.countLeadingZeros then
        l.canEvaluateTruncated 1 && r.canEvaluateTruncated 1
      else false
  | ext .., _ | constant .., _ | concat .., _ => true
  | _, _ => false

/-- `equalShallowly`: the same metadata and the same children, by address. Equal
metadata have equal hashes, so the hash comparison decides nothing. -/
def equalShallowly : Expr → Expr → Bool
  | bool _ b, bool _ b' => b == b'
  | constant _ n v, constant _ m w => n == m && v.toNat == w.toNat
  | read i, read j => i == j
  | concat _ l r, concat _ l' r' => l == l' && r == r'
  | extract _ e i b, extract _ e' i' b' => e == e' && i == i' && b == b'
  | ext _ k e b, ext _ k' e' b' => k == k' && e == e' && b == b'
  | unary _ k e, unary _ k' e' => k == k' && e == e'
  | binary _ k l r, binary _ k' l' r' => k == k' && l == l' && r == r'
  | compare _ k l r, compare _ k' l' r' => k == k' && l == l' && r == r'
  | ite _ c t f, ite _ c' t' f' => c == c' && t == t' && f == f'
  | _, _ => false

end Expr

end Qsym
