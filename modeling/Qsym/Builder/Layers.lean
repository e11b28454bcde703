import Qsym.Builder.Call

/-!
# Qsym.Builder.Layers

The **text of every builder layer**. Each layer is a function from the calls it
answers to a program; `this` is the object itself (virtual calls go there) and
`next` its `next_`. A call that a class does not override falls through to
`next`, as `ExprBuilder::createX` does.

Overloads of the source on `ConstantExprRef`/`NonConstantExprRef` carry the suffix
`Const`/`NonConst` of the operand they are about.
-/

namespace Qsym

open Procedure

/-! ### `BaseExprBuilder` -/

namespace BaseExprBuilder

/-- Allocate the node. Reads are kept, one node for each offset, and an extract of
the full width is its operand. -/
def body : Call → Build Expr
  | .read off => .ret (.read off)
  | .extract e index bits =>
      if bits = e.bits then .ret e else .makeShared (.extract e index bits)
  | c => .makeShared c

end BaseExprBuilder

/-! ### `CacheExprBuilder` -/

namespace CacheExprBuilder

/-- `CacheExprBuilder::findInCache` -/
def findInCache (σ : Session) (e : Expr) (k : Option Expr → Build Expr) : Build Expr :=
  .ask fun w => k (w.cache.find (σ.expired w.tick) e)

/-- `CacheExprBuilder::insertToCache` -/
def insertToCache (σ : Session) (e : Expr) : Build Expr :=
  .get fun w =>
    .set { w with cache := w.cache.insert (σ.expired w.tick) e, tick := w.tick + 1 } (.ret e)

/-- `CacheExprBuilder::findOrInsert` -/
def findOrInsert (σ : Session) (newExpr : Expr) : Build Expr :=
  findInCache σ newExpr fun
    | some cached => .ret cached
    | none => insertToCache σ newExpr

/-- What becomes of a new expression, by what the cache has for it. -/
def handOut (σ : Session) (newExpr : Expr) : Option Expr → Build Expr
  | some cached => .ret cached
  | none => insertToCache σ newExpr

/-- Everything but booleans, constants and reads is looked up. -/
def body (σ : Session) (next : ExprBuilder) : Call → Build Expr
  | .bool b => next.create (.bool b)
  | .constant n v => next.create (.constant n v)
  | .read off => next.create (.read off)
  | c => do
      let newExpr ← next.create c
      findOrInsert σ newExpr

end CacheExprBuilder

/-! ### `ConstantFoldingExprBuilder` -/

/-- The `APInt` operation that folds a binary kind on constants; division by zero
is a failed assertion of the library. `LOr` and `LAnd` fold booleans, not constants. -/
def BinaryKind.fold {n : Nat} : BinaryKind → BitVec n → BitVec n → Option (BitVec n)
  | add, v, w => some (v + w)
  | sub, v, w => some (v - w)
  | mul, v, w => some (v * w)
  | udiv, v, w => if w = 0 then none else some (v / w)
  | sdiv, v, w => if w = 0 then none else some (v.sdiv w)
  | urem, v, w => if w = 0 then none else some (v % w)
  | srem, v, w => if w = 0 then none else some (v.srem w)
  | and, v, w => some (v &&& w)
  | or, v, w => some (v ||| w)
  | xor, v, w => some (v ^^^ w)
  | shl, v, w => some (v <<< w)
  | lshr, v, w => some (v >>> w)
  | ashr, v, w => some (v.sshiftRight' w)
  | lor, _, _ | land, _, _ => none

/-- The predicate that folds a comparison of constants. -/
def CompareKind.fold {n : Nat} : CompareKind → BitVec n → BitVec n → Bool
  | equal, v, w => v == w
  | distinct, v, w => v != w
  | ult, v, w => v.ult w
  | ule, v, w => v.ule w
  | ugt, v, w => w.ult v
  | uge, v, w => w.ule v
  | slt, v, w => v.slt w
  | sle, v, w => v.sle w
  | sgt, v, w => w.slt v
  | sge, v, w => w.sle v

namespace ConstantFoldingExprBuilder

variable (this next : ExprBuilder)

def createConcat (l r : Expr) : Build Expr :=
  -- C(l, r) && l == constant && r == constant  => l << r_bits | r
  match l, r with
  | .constant _ n v, .constant _ m w =>
      this.create (.constant (n + m) ((v.setWidth (n + m) <<< m) ||| w.setWidth (n + m)))
  | l, r => next.createConcat l r

def createExtract (e : Expr) (index bits : Nat) : Build Expr :=
  match e with
  | .constant _ _ v => this.create (.constant bits ((v >>> index).setWidth bits))
  | e => next.createExtract e index bits

/-- `createZExt` and `createSExt` -/
def createExt (k : ExtKind) (e : Expr) (bits : Nat) : Build Expr :=
  match e with
  | .constant _ _ v =>
      this.create (.constant bits (match k with
        | .zext => v.setWidth bits
        | .sext => v.signExtend bits))
  | e => next.create (.ext k e bits)

/-- `createNeg`, `createNot` and `createLNot` -/
def createUnary (k : UnaryKind) (e : Expr) : Build Expr :=
  match k, e with
  | .neg, .constant _ n v => this.create (.constant n (-v))
  | .not, .constant _ n v => this.create (.constant n (~~~v))
  | .lnot, .bool _ b => this.createBool (!b)
  | k, e => next.create (.unary k e)

def createLAnd (l r : Expr) : Build Expr :=
  match l, r with
  | .bool _ b₀, .bool _ b₁ => this.createBool (b₀ && b₁)
  | l, r => next.createLAnd l r

def createLOr (l r : Expr) : Build Expr :=
  match l, r with
  | .bool _ b₀, .bool _ b₁ => this.createBool (b₀ || b₁)
  | l, r => next.createLOr l r

/-- The generated arithmetic, bitwise and shift methods. -/
def createArith (k : BinaryKind) (l r : Expr) : Build Expr :=
  match l, r with
  | .constant _ n v, .constant _ m w =>
      if h : m = n then
        match k.fold v (w.cast h) with
        | some u => this.create (.constant n u)
        | none => .stop
      else .stop
  | l, r => next.create (.binary k l r)

/-- `createEqual`, `createDistinct` and the generated ordered comparisons -/
def createCompare (k : CompareKind) (l r : Expr) : Build Expr :=
  match l, r with
  | .constant _ n v, .constant _ m w =>
      if h : m = n then this.createBool (k.fold v (w.cast h)) else .stop
  | .bool _ b₀, .bool _ b₁ =>
      match k with
      | .equal => this.createBool (b₀ == b₁)
      | .distinct => this.createBool (b₀ != b₁)
      | k => next.create (.compare k l r)
  | l, r => next.create (.compare k l r)

def createIte (cond t f : Expr) : Build Expr :=
  match cond with
  | .bool _ b => .ret (if b then t else f)
  | cond => next.createIte cond t f

def body : Call → Build Expr
  | .concat l r => createConcat this next l r
  | .extract e index bits => createExtract this next e index bits
  | .ext k e bits => createExt this next k e bits
  | .unary k e => createUnary this next k e
  | .binary .land l r => createLAnd this next l r
  | .binary .lor l r => createLOr this next l r
  | .binary k l r => createArith this next k l r
  | .compare k l r => createCompare this next k l r
  | .ite cond t f => createIte next cond t f
  | c => next.create c

end ConstantFoldingExprBuilder

/-! ### `CommonSimplifyExprBuilder` -/

namespace CommonSimplifyExprBuilder

variable (this next : ExprBuilder)

/-- The second rule of `createConcat`, on an extract from right above a node equal
to `r`. -/
def createConcatExt (l r : Expr) : Build Expr :=
  match l with
  | .extract _ (.ext ref k e w) index bits =>
      -- C(E(Ext(e), e->bits(), bits), e) == E(Ext(e), 0, e->bits() + bits)
      if index = r.bits ∧ e.equalShallowly r then
        this.createExtract (.ext ref k e w) 0 (bits + r.bits)
      else next.createConcat l r
  | l => next.createConcat l r

def createConcat (l r : Expr) : Build Expr :=
  match l, r with
  | .extract _ e index bits, .extract _ e' index' bits' =>
      -- C(E(e, x, y), E(e, y, z)) => E(e, x, z)
      if e = e' ∧ index' + bits' = index then this.createExtract e index' (bits' + bits)
      else createConcatExt this next l r
  | l, r => createConcatExt this next l r

/-- The end of `createExtract`, when no rule applies. -/
def createExtractWhole (e : Expr) (index bits : Nat) : Build Expr :=
  if index = 0 ∧ e.bits = bits then .ret e else next.createExtract e index bits

def createExtract (e : Expr) (index bits : Nat) : Build Expr :=
  match e with
  | .concat _ l r =>
      -- skips right part
      if r.bits ≤ index then this.createExtract l (index - r.bits) bits
      -- skips left part
      else if index + bits ≤ r.bits then this.createExtract r index bits
      -- E(C(C_0,y)) ==> C(E(C_0), E(y)); the unsigned `bits - r_bits + index`
      else if l.isConstant then do
        let el ← this.createExtract l 0 (bits + index - r.bits)
        let er ← this.createExtract r index (r.bits - index)
        this.createConcat el er
      else createExtractWhole next e index bits
  | .ext _ k x _ =>
      -- E(Ext(x), i, b) && len(x) >= i + b == E(x, i, b)
      if index + bits ≤ x.bits then this.createExtract x index bits
      -- E(ZExt(x), i, b) && len(x) < i == 0
      else if k = .zext ∧ x.bits ≤ index then this.createConstant 0 bits
      else createExtractWhole next e index bits
  -- E(E(x, i1, b1), i2, b2) == E(x, i1 + i2, b2)
  | .extract _ x index' _ => this.createExtract x (index' + index) bits
  | e => createExtractWhole next e index bits

def createZExt (e : Expr) (bits : Nat) : Build Expr :=
  -- allow shrinking
  if bits < e.bits then this.createExtract e 0 bits
  else if e.bits = bits then .ret e
  else next.create (.ext .zext e bits)

def createAdd (l r : Expr) : Build Expr :=
  if l.isZero then .ret r else next.createAdd l r

def createMul (l r : Expr) : Build Expr :=
  -- 0 * X ==> 0
  if l.isZero then .ret l
  -- 1 * X ==> X
  else if l.isOne then .ret r
  else next.createMul l r

def simplifyAnd (l r : Expr) : Option Expr :=
  -- l & 0 ==> 0
  if l.isZero then some l
  -- l & 11...1b ==> l
  else if l.isAllOnes then some r
  else none

def simplifyOr (l r : Expr) : Option Expr :=
  -- 0 | X ==> X
  if l.isZero then some r
  -- 111...1b | X ==> 111...1b
  else if l.isAllOnes then some l
  else none

def simplifyXor (l r : Expr) : Option Expr :=
  -- 0 ^ X ==> X
  if l.isZero then some r else none

/-- What `createAnd`, `createOr` and `createXor` share: a constant against a
concatenation is taken apart when its left part simplifies. -/
def createBitwise (k : BinaryKind) (simplify : Expr → Expr → Option Expr) (l r : Expr) :
    Build Expr :=
  match simplify l r with
  | some simplified => .ret simplified
  | none =>
      match l, r with
      | .constant .., .concat _ rLeft rRight => do
          let lLeft ← this.createExtract l rRight.bits rLeft.bits
          match simplify lLeft rLeft with
          | some left => do
              let lRight ← this.createExtract l 0 rRight.bits
              let right ← this.create (.binary k lRight rRight)
              this.createConcat left right
          | none => next.create (.binary k l r)
      | l, r => next.create (.binary k l r)

def createAnd (l r : Expr) : Build Expr := createBitwise this next .and simplifyAnd l r
def createOr (l r : Expr) : Build Expr := createBitwise this next .or simplifyOr l r
def createXor (l r : Expr) : Build Expr := createBitwise this next .xor simplifyXor l r

/-- The shift amount `getLimitedValue()` saturates at the largest 64-bit number,
which no width reaches. -/
def createShl (l r : Expr) : Build Expr :=
  if l.isZero then .ret l
  else match r with
    | .constant _ _ v =>
        let rval := v.toNat
        if rval = 0 then .ret l
        -- l << larger_than_l_size == 0
        else if l.bits ≤ rval then this.createConstant 0 l.bits
        -- from z3: (bvshl x k) -> (concat (extract [n-1-k:0] x) bv0:k)
        else if rval % 8 = 0 then do
          let zero ← this.createConstant 0 rval
          let part ← this.createExtract l 0 (l.bits - rval)
          this.createConcat part zero
        else next.create (.binary .shl l r)
    | r => next.create (.binary .shl l r)

def createLShr (l r : Expr) : Build Expr :=
  if l.isZero then .ret l
  else match r with
    | .constant _ _ v =>
        let rval := v.toNat
        if rval = 0 then .ret l
        else if l.bits ≤ rval then this.createConstant 0 l.bits
        -- from z3: (bvlshr x k) -> (concat bv0:k (extract [n-1:k] x))
        else if rval % 8 = 0 then do
          let zero ← this.createConstant 0 rval
          let part ← this.createExtract l rval (l.bits - rval)
          this.createConcat zero part
        else next.create (.binary .lshr l r)
    | r => next.create (.binary .lshr l r)

def createAShr (l r : Expr) : Build Expr :=
  if r.isZero then .ret l else next.create (.binary .ashr l r)

def createEqual (l r : Expr) : Build Expr :=
  match l with
  | .bool _ b => if b then .ret r else this.createLNot r
  | l => next.createEqual l r

def body : Call → Build Expr
  | .concat l r => createConcat this next l r
  | .extract e index bits => createExtract this next e index bits
  | .ext .zext e bits => createZExt this next e bits
  | .binary .add l r => createAdd next l r
  | .binary .mul l r => createMul next l r
  | .binary .and l r => createAnd this next l r
  | .binary .or l r => createOr this next l r
  | .binary .xor l r => createXor this next l r
  | .binary .shl l r => createShl this next l r
  | .binary .lshr l r => createLShr this next l r
  | .binary .ashr l r => createAShr next l r
  | .compare .equal l r => createEqual this next l r
  | c => next.create c

end CommonSimplifyExprBuilder

/-! ### `SymbolicExprBuilder` -/

namespace SymbolicExprBuilder

variable (this next : ExprBuilder)

def createConcat (l r : Expr) : Build Expr :=
  match l, r with
  | .constant .., .concat _ x y =>
      -- C(l, C(x, y)) && l, x == constant => C(l|x, y)
      if x.isConstant then do
        let lx ← this.createConcat l x
        this.createConcat lx y
      else next.createConcat l r
  | .concat _ x y, r => do
      -- C(C(x ,y), z) => C(x, C(y, z))
      let yr ← this.createConcat y r
      this.createConcat x yr
  | l, r => next.createConcat l r

/-- `evaluateInDifferentType`. The first two extracts of the source are built and
not used. -/
def evaluateInDifferentType (op : Expr) (index bits : Nat) : Option (Build Expr) :=
  match op with
  | .binary _ .mul l r => some (narrow .mul l r)
  | .binary _ .udiv l r => some (narrow .udiv l r)
  | .binary _ .urem l r => some (narrow .urem l r)
  | _ => none
where
  narrow (k : BinaryKind) (l r : Expr) : Build Expr := do
    let _ ← this.createExtract l index bits
    let _ ← this.createExtract r index bits
    let el ← this.createExtract l index bits
    let er ← this.createExtract r index bits
    this.createBinaryExpr k el er

def createExtract (op : Expr) (index bits : Nat) : Build Expr :=
  -- Only byte-wise simplification
  if index = 0 ∧ bits % 8 = 0 ∧ op.canEvaluateTruncated bits then
    match evaluateInDifferentType this op index bits with
    | some e => e
    | none => next.createExtract op index bits
  else next.createExtract op index bits

/-- How many bits of `e` from `i` on are zero by `isZeroBit`, at most `n`. -/
def zeroRun (e : Expr) : Nat → Nat → Nat
  | _, 0 => 0
  | i, n + 1 => if e.isZeroBit i then zeroRun e (i + 1) n + 1 else 0

/-- A piece of an operand: the expression, the bit it starts at, its width. -/
abbrev Piece := Expr × Nat × Nat

/-- The loop of `simplifyExclusiveExpr` from bit `i` on, lowest piece first. At
least one bit is passed in each round. -/
def exclusivePieces (l r : Expr) : Nat → Nat → List Piece
  | 0, _ => []
  | fuel + 1, i =>
      if i < l.bits then
        let m := zeroRun l i (l.bits - i)
        let n := zeroRun r (i + m) (r.bits - (i + m))
        (if m = 0 then [] else [(r, i, m)]) ++ (if n = 0 then [] else [(l, i + m, n)]) ++
          exclusivePieces l r fuel (i + m + n)
      else []

/-- `exprs.push_front(createExtract(…))` for every piece. -/
def extractPieces : List Piece → List Expr → Build (List Expr)
  | [], exprs => .ret exprs
  | (e, index, bits) :: ps, exprs => do
      let x ← this.createExtract e index bits
      extractPieces ps (x :: exprs)

/-- `ExprBuilder::createConcat` of a list, after its first element. -/
def createConcatList (e : Expr) : List Expr → Build Expr
  | [] => .ret e
  | x :: exprs => do
      let e' ← this.createConcat e x
      createConcatList e' exprs

/-- No bit may be set in both operands. -/
def exclusive (l r : Expr) : Bool :=
  (List.range l.bits).all fun i => l.isZeroBit i || r.isZeroBit i

def simplifyExclusiveExpr (l r : Expr) : Option (Build Expr) :=
  -- (bvor (concat x #x00) (concat #x00 y)) --> (concat x y)
  -- (bvadd (concat x #x00) (concat #x00 y)) --> (concat x y)
  if exclusive l r then
    some do
      let exprs ← extractPieces this (exclusivePieces l r l.bits 0) []
      match exprs with
      | [] => .stop
      | e :: exprs => createConcatList this e exprs
  else none

def createAddConst (l r : Expr) : Build Expr :=
  match r with
  | .binary _ .add x y =>
      -- C_0 + (C_1 + X) ==> (C_0 + C_1) + X
      if x.isConstant then do
        let c ← this.createAdd l x
        this.createAdd c y
      -- C_0 + (X + C_1) ==> (C_0 + C_1) + X
      else if y.isConstant then do
        let c ← this.createAdd l y
        this.createAdd c x
      else next.createAdd l r
  | .binary _ .sub x y =>
      -- C_0 + (C_1 - X) ==> (C_0 + C1) - X
      if x.isConstant then do
        let c ← this.createAdd l x
        this.createSub c y
      -- C_0 + (X - C_1) ==> (C_0 - C1) + X
      else if y.isConstant then do
        let c ← this.createSub l y
        this.createAdd c x
      else next.createAdd l r
  | r => next.createAdd l r

/-- The rules of `createAddNonConst` on its right operand. -/
def createAddRight (l r : Expr) : Build Expr :=
  match r with
  | .binary _ .add x y =>
      -- X + (C_0 + Y) ==> C_0 + (X + Y)
      if x.isConstant then do
        let e ← this.createAdd l y
        this.createAdd x e
      -- X + (Y + C_0) ==> C_0 + (X + Y)
      else if y.isConstant then do
        let e ← this.createAdd l x
        this.createAdd y e
      else next.createAdd l r
  | .binary _ .sub x y =>
      -- X + (C_0 - Y) ==> C_0 + (X - Y)
      if x.isConstant then do
        let e ← this.createSub l y
        this.createAdd x e
      -- X + (Y - C_0) ==> -C_0 + (X + Y)
      else if y.isConstant then do
        let c ← this.createNeg y
        let e ← this.createAdd l x
        this.createAdd c e
      else next.createAdd l r
  | r => next.createAdd l r

def createAddNonConst (l r : Expr) : Build Expr :=
  -- l + l ==> 2 * l
  if l = r then do
    let two ← this.createConstant 2 l.bits
    this.createMul two l
  else
    match l with
    -- (X + Y) + Z ==> Z + (X + Y), or (X - Y) + Z ==> Z + (X - Y)
    | .binary _ .add _ _ | .binary _ .sub _ _ => createAddRight this next r l
    | l => createAddRight this next l r

def createAdd (l r : Expr) : Build Expr :=
  match simplifyExclusiveExpr this l r with
  | some e => e
  | none =>
      if r.isConstant then next.createAdd l r
      else if l.isConstant then createAddConst this next l r
      else createAddNonConst this next l r

def createSubConst (l r : Expr) : Build Expr :=
  match r with
  | .binary _ .add x y =>
      -- C_0 - (C_1 + X) ==> (C_0 - C1) - X
      if x.isConstant then do
        let c ← this.createSub l x
        this.createSub c y
      -- C_0 - (X + C_1) ==> (C_0 - C1) - X
      else if y.isConstant then do
        let c ← this.createSub l y
        this.createSub c x
      else next.createSub l r
  | .binary _ .sub x y =>
      -- C_0 - (C_1 - X) ==> (C_0 - C1) + X
      if x.isConstant then do
        let c ← this.createSub l x
        this.createAdd c y
      -- C_0 - (X - C_1) ==> (C_0 + C1) - X
      else if y.isConstant then do
        let c ← this.createAdd l y
        this.createSub c x
      else next.createSub l r
  | r => next.createSub l r

/-- The rules of `createSubNonConst` on its right operand. -/
def createSubRight (l r : Expr) : Build Expr :=
  match r with
  | .binary _ .add x y =>
      -- X - (C_0 + Y) ==> -C_0 + (X - Y)
      if x.isConstant then do
        let c ← this.createNeg x
        let e ← this.createSub l y
        this.createAdd c e
      -- X - (Y + C_0) ==> -C_0 + (X - Y)
      else if y.isConstant then do
        let c ← this.createNeg y
        let e ← this.createSub l x
        this.createAdd c e
      else next.createSub l r
  | .binary _ .sub x y =>
      -- X - (C_0 - Y) ==> -C_0 + (X + Y)
      if x.isConstant then do
        let c ← this.createNeg x
        let e ← this.createAdd l y
        this.createAdd c e
      -- X - (Y - C_0) ==> C_0 + (X - Y)
      else if y.isConstant then do
        let e ← this.createSub l x
        this.createAdd y e
      else next.createSub l r
  | r => next.createSub l r

def createSubNonConst (l r : Expr) : Build Expr :=
  -- X - X ==> 0
  if l = r then this.createConstant 0 l.bits
  else
    match l with
    | .binary _ .add x y =>
        -- (C + Y) - Z ==> C + (Y - Z). The case falls through to `Sub`, whose
        -- test of the same child fails again.
        if x.isConstant then do
          let e ← this.createSub y r
          this.createAdd x e
        else createSubRight this next l r
    | .binary _ .sub x y =>
        -- (C - Y) - Z ==> C - (Y + Z)
        if x.isConstant then do
          let e ← this.createAdd y r
          this.createSub x e
        else createSubRight this next l r
    | l => createSubRight this next l r

def createSub (l r : Expr) : Build Expr :=
  if r.isConstant then next.createSub l r
  else if l.isConstant then createSubConst this next l r
  else createSubNonConst this next l r

def createMulConst (l r : Expr) : Build Expr :=
  match r with
  -- C_0 * (C_1 * x) ==> (C_0 * C_1) * x
  | .binary _ .mul c x =>
      if c.isConstant then do
        let c' ← this.createMul l c
        this.createMul c' x
      else next.createMul l r
  -- C_0 * (C_1 + x) ==> C_0 * C_1 + C_0 * x
  | .binary _ .add c x =>
      if c.isConstant then do
        let e₁ ← this.createMul l c
        let e₂ ← this.createMul l x
        this.createAdd e₁ e₂
      else next.createMul l r
  | r => next.createMul l r

def createMul (l r : Expr) : Build Expr :=
  if r.isConstant = false ∧ l.isConstant then createMulConst this next l r
  else next.createMul l r

/-- The last rule of `createSDivConst`, on nested divisions. -/
def createSDivNested (l r : Expr) : Build Expr :=
  match l with
  | .binary _ .sdiv x c =>
      -- TODO: add overflow check
      -- (x / C_0) / C_1 = (x / (C_0 * C_1))
      if c.isConstant then do
        let c' ← this.createMul c r
        this.createSDiv x c'
      else next.createSDiv l r
  | l => next.createSDiv l r

def createSDivConst {n : Nat} (l r : Expr) (v : BitVec n) : Build Expr :=
  -- x /s -1 = -x
  if r.isAllOnes then this.createNeg l
  else
    match l with
    -- SExt(x) /s y && x->bits() >= y->getActiveBits() ==> SExt(x /s y)
    | .ext _ .sext x bits =>
        if Expr.getActiveBits v ≤ x.bits then do
          let er ← this.createExtract r 0 x.bits
          let q ← this.createSDiv x er
          this.createSExt q bits
        else createSDivNested this next l r
    | l => createSDivNested this next l r

def createSDiv (l r : Expr) : Build Expr :=
  match r with
  | .constant _ _ v =>
      if l.isConstant then next.createSDiv l r else createSDivConst this next l r v
  | r => next.createSDiv l r

/-- The last rule of `createUDivConst`, on nested divisions. -/
def createUDivNested (l r : Expr) : Build Expr :=
  match l with
  | .binary _ .udiv x c =>
      -- TODO: add overflow check
      -- (x / C_0) / C_1 = (x / (C_0 * C_1))
      if c.isConstant then do
        let c' ← this.createMul c r
        this.createUDiv x c'
      else next.createUDiv l r
  | l => next.createUDiv l r

def createUDivConst {n : Nat} (l r : Expr) (v : BitVec n) : Build Expr :=
  match l with
  -- C(0, x) / y && y->getActiveBits() <= x->bits()
  -- == C(0, x/E(y, 0, x->bits()))
  | .concat _ z x =>
      if z.isZero ∧ Expr.getActiveBits v ≤ x.bits then do
        let er ← this.createExtract r 0 x.bits
        let q ← this.createUDiv x er
        this.createConcat z q
      else createUDivNested this next l r
  | l => createUDivNested this next l r

def createUDiv (l r : Expr) : Build Expr :=
  match r with
  | .constant _ _ v =>
      if l.isConstant then next.createUDiv l r else createUDivConst this next l r v
  | r => next.createUDiv l r

def createAndNonConst (l r : Expr) : Build Expr :=
  -- A & A  ==> A
  if l = r then .ret l
  else
    match l, r with
    -- C(x, y) & C(w, v) ==> C(x & w, y & v)
    | .concat _ x y, .concat _ w v =>
        if x.bits = w.bits then do
          let left ← this.createAnd x w
          let right ← this.createAnd y v
          this.createConcat left right
        else next.createAnd l r
    | l, r => next.createAnd l r

/-- The overload on a constant left operand only calls `next`. -/
def createAnd (l r : Expr) : Build Expr :=
  if r.isConstant then next.createAnd l r
  else if l.isConstant then next.createAnd l r
  else createAndNonConst this next l r

def createOrConst (l r : Expr) : Build Expr :=
  match r with
  -- C_0 | C(x, y) ==> C(C_0 | x, C_0 | y)
  | .concat _ x y => do
      let lx ← this.createExtract l y.bits x.bits
      let left ← this.createOr lx x
      let ly ← this.createExtract l 0 y.bits
      let right ← this.createOr ly y
      this.createConcat left right
  | r => next.createOr l r

def createOrNonConst (l r : Expr) : Build Expr :=
  -- A | A = A
  if l = r then .ret l
  else
    match l, r with
    -- C(x, y) & C(w, v) == C(x | w, y | v)
    | .concat _ x y, .concat _ w v =>
        if x.bits = w.bits then do
          let left ← this.createOr x w
          let right ← this.createOr y v
          this.createConcat left right
        else next.createOr l r
    | l, r => next.createOr l r

def createOr (l r : Expr) : Build Expr :=
  match simplifyExclusiveExpr this l r with
  | some e => e
  | none =>
      if r.isConstant then next.createOr l r
      else if l.isConstant then createOrConst this next l r
      else createOrNonConst this next l r

def createXor (l r : Expr) : Build Expr :=
  if r.isConstant = false ∧ l.isConstant = false ∧ l = r then this.createConstant 0 l.bits
  else next.createXor l r

def createEqual (l r : Expr) : Build Expr :=
  if l = r then this.createBool true else next.createEqual l r

def createDistinct (l r : Expr) : Build Expr := do
  let e ← this.createEqual l r
  this.createLNot e

def createLOr (l r : Expr) : Build Expr :=
  match l, r with
  | .bool _ b, r => if b then this.createBool true else .ret r
  | l, .bool _ b => if b then this.createBool true else .ret l
  | l, r => next.createLOr l r

def createLAnd (l r : Expr) : Build Expr :=
  match l, r with
  | .bool _ b, r => if b then .ret r else this.createBool false
  | l, .bool _ b => if b then .ret l else this.createBool false
  | l, r => next.createLAnd l r

def createLNot (e : Expr) : Build Expr :=
  match e with
  | .bool _ b => this.createBool (!b)
  | .unary _ .lnot x => .ret x
  | e => next.createLNot e

def createIte (cond t f : Expr) : Build Expr :=
  match cond with
  | .bool _ b => .ret (if b then t else f)
  | .unary _ .lnot x => this.createIte x f t
  | cond => next.createIte cond t f

def body : Call → Build Expr
  | .concat l r => createConcat this next l r
  | .extract e index bits => createExtract this next e index bits
  | .unary .lnot e => createLNot this next e
  | .binary .add l r => createAdd this next l r
  | .binary .sub l r => createSub this next l r
  | .binary .mul l r => createMul this next l r
  | .binary .sdiv l r => createSDiv this next l r
  | .binary .udiv l r => createUDiv this next l r
  | .binary .and l r => createAnd this next l r
  | .binary .or l r => createOr this next l r
  | .binary .xor l r => createXor this next l r
  | .binary .lor l r => createLOr this next l r
  | .binary .land l r => createLAnd this next l r
  | .compare .equal l r => createEqual this next l r
  | .compare .distinct l r => createDistinct this l r
  | .ite cond t f => createIte this next cond t f
  | c => next.create c

end SymbolicExprBuilder

/-! ### `CommutativeExprBuilder` -/

/-- `swapKind`: `x k y` is `y (swap k) x`. -/
def CompareKind.swap : CompareKind → CompareKind
  | equal => equal
  | distinct => distinct
  | ult => ugt
  | ule => uge
  | ugt => ult
  | uge => ule
  | slt => sgt
  | sle => sge
  | sgt => slt
  | sge => sle

/-- The binary kinds `CommutativeExprBuilder` lists. -/
def BinaryKind.isCommutative : BinaryKind → Bool
  | add | mul | and | or | xor | land | lor => true
  | _ => false

namespace CommutativeExprBuilder

variable (this next : ExprBuilder)

/-- A constant moves to the left. -/
def createCommutative (k : BinaryKind) (l r : Expr) : Build Expr :=
  if l.isConstant = false ∧ r.isConstant then this.create (.binary k r l)
  else next.create (.binary k l r)

/-- A constant moves to the left of the mirrored comparison. -/
def createCompare (k : CompareKind) (l r : Expr) : Build Expr :=
  if l.isConstant = false ∧ r.isConstant then this.create (.compare k.swap r l)
  else next.create (.compare k l r)

def createSub (l r : Expr) : Build Expr :=
  -- X - C_0 = -C_0 + X
  if l.isConstant = false ∧ r.isConstant then do
    let c ← this.createNeg r
    this.createAdd c l
  else next.createSub l r

def body : Call → Build Expr
  | .binary .sub l r => createSub this next l r
  | .binary k l r =>
      if k.isCommutative then createCommutative this next k l r
      else next.create (.binary k l r)
  | .compare k l r => createCompare this next k l r
  | c => next.create c

end CommutativeExprBuilder

/-! ### Evaluation and `PruneExprBuilder` -/

/-- `CEB`, the builder of the evaluator (`ConstantFoldingExprBuilder::create`). -/
def CEB : ExprBuilder := [.constantFolding, .base]

/-- `checkExpr` -/
def checkExpr (e : Expr) : Build Expr :=
  match e with
  | .constant .. | .bool .. => .ret e
  | _ => .stop

/-- `Expr::evaluate`: rebuild the expression on the input with `CEB`. -/
def Expr.evaluate (σ : Session) : Expr → Build Expr
  | .bool _ b => .makeShared (.bool b)
  | .constant _ n v => .makeShared (.constant n v)
  | .read i =>
      -- `Solver::getInput` asserts that the index is inside the input.
      match σ.inputs[i]? with
      | some v => .makeShared (.constant 8 v)
      | none => .stop
  | .concat _ l r => do
      let c0 ← l.evaluate σ
      let c1 ← r.evaluate σ
      let e ← CEB.create (.concat c0 c1)
      checkExpr e
  | .extract _ e index bits => do
      let c0 ← e.evaluate σ
      let e ← CEB.create (.extract c0 index bits)
      checkExpr e
  | .ext _ k e bits => do
      let c0 ← e.evaluate σ
      let e ← CEB.create (.ext k c0 bits)
      checkExpr e
  | .unary _ k e => do
      let c0 ← e.evaluate σ
      let e ← CEB.create (.unary k c0)
      checkExpr e
  | .binary _ k l r => do
      let c0 ← l.evaluate σ
      let c1 ← r.evaluate σ
      let e ← CEB.create (.binary k c0 c1)
      checkExpr e
  | .compare _ k l r => do
      let c0 ← l.evaluate σ
      let c1 ← r.evaluate σ
      let e ← CEB.create (.compare k c0 c1)
      checkExpr e
  | .ite _ c t f => do
      let c0 ← c.evaluate σ
      let c1 ← t.evaluate σ
      let c2 ← f.evaluate σ
      let e ← CEB.create (.ite c0 c1 c2)
      checkExpr e

namespace PruneExprBuilder

/-- The result stays symbolic only if the call stack manager finds the current
point interesting. -/
def prune (σ : Session) (ref : Expr) : Build Expr :=
  .ask fun w => if σ.isInteresting w.tick then .ret ref else ref.evaluate σ

/-- Every kind but `Concat`, `Extract` and the comparisons is pruned. -/
def body (σ : Session) (next : ExprBuilder) : Call → Build Expr
  | .ext k e bits => do
      let ref ← next.create (.ext k e bits)
      prune σ ref
  | .unary k e => do
      let ref ← next.create (.unary k e)
      prune σ ref
  | .binary k l r => do
      let ref ← next.create (.binary k l r)
      prune σ ref
  | .ite cond t f => do
      let ref ← next.create (.ite cond t f)
      prune σ ref
  | c => next.create c

end PruneExprBuilder

/-! ### The chains -/

/-- The method bodies. A layer without `next_` has nothing to fall through to. -/
def body (σ : Session) : MethodCall → Build Expr
  | ⟨[], _⟩ => .stop
  | ⟨.base :: _, c⟩ => BaseExprBuilder.body c
  | ⟨.cache :: next, c⟩ => CacheExprBuilder.body σ next c
  | ⟨.constantFolding :: next, c⟩ =>
      ConstantFoldingExprBuilder.body (.constantFolding :: next) next c
  | ⟨.common :: next, c⟩ => CommonSimplifyExprBuilder.body (.common :: next) next c
  | ⟨.symbolic :: next, c⟩ => SymbolicExprBuilder.body (.symbolic :: next) next c
  | ⟨.commutative :: next, c⟩ => CommutativeExprBuilder.body (.commutative :: next) next c
  | ⟨.prune :: next, c⟩ => PruneExprBuilder.body σ next c

/-- `SymbolicExprBuilder::create` -/
def SymbolicExprBuilder.chain : ExprBuilder :=
  [.commutative, .symbolic, .common, .constantFolding, .cache, .base]

/-- `PruneExprBuilder::create` -/
def PruneExprBuilder.chain : ExprBuilder :=
  [.commutative, .symbolic, .common, .constantFolding, .prune, .cache, .base]

end Qsym
