import Mathlib.Logic.Function.Basic
import Qsym.Builder.Layers

/-!
# Qsym.Flags.Eflags

The lazily computed condition flags. An `Eflags` does not hold flags but the last
operation of every kind, the order in which kinds came in (a ring of
`CC_OP_LAST` kinds), and which flags are known. A flag is computed when a jump asks
for it, from the operation that the walk back over the ring comes to first
(`computeFlag`); a jump after a comparison is answered from its operands
(`computeFastJcc`).

`&`, `|` and `~` on flag sets are those of `UINT32`, and so is the index arithmetic of
the walk.
-/

namespace Qsym

open Procedure

/-- `negateKind`: `x (negate k) y` if not `x k y`. -/
def CompareKind.negate : CompareKind → CompareKind
  | equal => distinct
  | distinct => equal
  | ult => uge
  | ule => ugt
  | ugt => ule
  | uge => ult
  | slt => sge
  | sle => sgt
  | sgt => sle
  | sge => slt

/-- `JCC_*` -/
inductive JccKind
  | b | be | l | le | o | s | p | z
  deriving DecidableEq, Repr

/-- `CC_OP_*` -/
inductive OpKind
  | add | sub | logic | inc | dec | shl | shr | ror | rol | smul | umul | bt
  deriving DecidableEq, Repr

/-- `CC_OP_LAST` -/
abbrev OpKind.last : Nat := 12

/-- `EFLAGS_*` -/
inductive Eflag
  | cf | pf | af | zf | sf | of
  deriving DecidableEq, Repr

/-- A set of flags, as a mask. -/
abbrev EflagSet := BitVec 32

/-- The value of the enumerator. -/
def Eflag.mask : Eflag → EflagSet
  | cf => (1 : EflagSet) <<< 0
  | pf => (1 : EflagSet) <<< 2
  | af => (1 : EflagSet) <<< 4
  | zf => (1 : EflagSet) <<< 6
  | sf => (1 : EflagSet) <<< 7
  | of => (1 : EflagSet) <<< 11

namespace OpKind

/-- `getAffectedEflagsFromOpKind` -/
def getAffectedEflags : OpKind → EflagSet
  | add | sub | logic | shl | shr | smul | umul =>
      Eflag.cf.mask ||| Eflag.pf.mask ||| Eflag.zf.mask ||| Eflag.sf.mask ||| Eflag.of.mask
  | bt => Eflag.cf.mask
  | inc | dec => Eflag.pf.mask ||| Eflag.zf.mask ||| Eflag.sf.mask ||| Eflag.of.mask
  | ror | rol => Eflag.cf.mask ||| Eflag.of.mask

/-- `getUndefinedEflagsFromOpKind` -/
def getUndefinedEflags : OpKind → EflagSet
  | bt => Eflag.of.mask ||| Eflag.sf.mask ||| Eflag.af.mask ||| Eflag.pf.mask
  | _ => 0

/-- `getEflagsFromOpKind` -/
def getEflags (k : OpKind) : EflagSet :=
  k.getAffectedEflags ||| k.getUndefinedEflags

end OpKind

/-- The flags a condition looks at. -/
def JccKind.flags : JccKind → List Eflag
  | b => [.cf]
  | be => [.cf, .zf]
  | l => [.sf, .of]
  | le => [.sf, .of, .zf]
  | s => [.sf]
  | z => [.zf]
  | o => [.of]
  | p => [.pf]

/-- `getEflagsFromJcc` -/
def JccKind.getEflags (jcc : JccKind) : EflagSet :=
  jcc.flags.foldr (fun f set => f.mask ||| set) 0

/-! ### `FlagOperation` -/

/-- What is kept of the last operation of a kind. `none` is the null pointer. -/
structure FlagOperation where
  flags : EflagSet
  result : Option Expr
  dst : Option Expr
  src : Option Expr
  deriving DecidableEq

namespace FlagOperation

/-- `FlagOperation::FlagOperation` -/
def init : FlagOperation :=
  { flags := 0, result := none, dst := none, src := none }

/-- `FlagOperation::set` -/
def set (kind : OpKind) (result dst src : Option Expr) : FlagOperation :=
  { flags := kind.getEflags, result, dst, src }

/-- Look at an expression that must be there. -/
def deref : Option Expr → Build Expr
  | some e => .ret e
  | none => .stop

variable (b : ExprBuilder)

/-- `ExprBuilder::createMsb` -/
def createMsb (e : Expr) : Build Expr :=
  b.createExtract e (e.bits - 1) 1

/-- `ExprBuilder::createLsb` -/
def createLsb (e : Expr) : Build Expr :=
  b.createExtract e 0 1

/-- `ExprBuilder::bitToBool` -/
def bitToBool (e : Expr) : Build Expr :=
  if e.bits = 1 then do
    let one ← b.createConstant 1 e.bits
    b.createEqual e one
  else .stop

/-- The loop of `computePF`: the exclusive or of the bits from `i` on. -/
def xorBits (e : Expr) (acc : Expr) : List Nat → Build Expr
  | [] => .ret acc
  | i :: is => do
      let bit ← b.createExtract e i 1
      let acc ← b.createXor bit acc
      xorBits e acc is

/-- `FlagOperation::computePF` -/
def computePF (op : FlagOperation) : Build Expr := do
  let zero ← b.createConstant 0 1
  let result ← deref op.result
  let bit ← b.createExtract result 0 1
  let res ← xorBits b result bit [1, 2, 3, 4, 5, 6, 7]
  b.createEqual zero res

/-- `FlagOperation::computeSF` -/
def computeSF (op : FlagOperation) : Build Expr := do
  let result ← deref op.result
  let zero ← b.createConstant 0 result.bits
  b.create (.compare .slt result zero)

/-- `FlagOperation::computeZF` -/
def computeZF (op : FlagOperation) : Build Expr := do
  let result ← deref op.result
  let zero ← b.createConstant 0 result.bits
  b.create (.compare .equal result zero)

/-- `AddFlagOperation::computeOF`: both operands have the sign that the result has not. -/
def addOF (op : FlagOperation) : Build Expr := do
  let dst ← deref op.dst
  let src ← deref op.src
  let e ← b.createXor dst src
  let e ← b.create (.unary .not e)
  let e ← createMsb b e
  let result ← deref op.result
  let e2 ← b.createXor result dst
  let e2 ← createMsb b e2
  let e ← b.createAnd e e2
  bitToBool b e

/-- `SubFlagOperation::computeOF` -/
def subOF (op : FlagOperation) : Build Expr := do
  let dst ← deref op.dst
  let src ← deref op.src
  let e ← b.createXor dst src
  let e ← createMsb b e
  let result ← deref op.result
  let e2 ← b.createXor result dst
  let e2 ← createMsb b e2
  let e ← b.createAnd e e2
  bitToBool b e

/-- `IncFlagOperation::computeOF` and `DecFlagOperation::computeOF`: the result is the
last value that overflows. -/
def stepOF (op : FlagOperation) (v : (n : Nat) → BitVec n) : Build Expr := do
  let result ← deref op.result
  let imm ← b.create (.constant result.bits (v result.bits))
  b.create (.compare .equal result imm)

/-- `ShiftFlagOperation::computeOF` -/
def shiftOF (op : FlagOperation) : Build Expr := do
  let result ← deref op.result
  let dst ← deref op.dst
  let e ← b.createXor result dst
  let e ← createMsb b e
  bitToBool b e

/-- `RolFlagOperation::computeOF` -/
def rolOF (op : FlagOperation) : Build Expr := do
  let result ← deref op.result
  let e ← createMsb b result
  let e2 ← createLsb b result
  let e ← b.createXor e e2
  bitToBool b e

/-- `RorFlagOperation::computeOF` -/
def rorOF (op : FlagOperation) : Build Expr := do
  let result ← deref op.result
  let e ← createMsb b result
  let e2 ← b.createExtract result (result.bits - 2) 1
  let e ← b.createXor e e2
  bitToBool b e

/-- `MulFlagOperation::_computeOF` -/
def mulOF (op : FlagOperation) (ext : ExtKind) : Build Expr := do
  let result ← deref op.result
  let res ← b.createExtract result 0 (result.bits / 2)
  let res ← b.create (.ext ext res result.bits)
  b.create (.compare .equal res result)

/-- A bit of an operand as a truth value. -/
def bitCF (e : Option Expr) (bit : ExprBuilder → Expr → Build Expr) : Build Expr := do
  let e ← deref e
  let e ← bit b e
  bitToBool b e

/-- `computeOF` of the class of the kind. The base class asserts. -/
def computeOF (op : FlagOperation) : OpKind → Build Expr
  | .add => op.addOF b
  | .sub => op.subOF b
  | .logic => b.createBool false
  | .inc => op.stepOF b fun n => (1 : BitVec n) <<< (n - 1)
  | .dec => op.stepOF b fun n => ((1 : BitVec n) <<< (n - 1)) - 1
  | .shl | .shr => op.shiftOF b
  | .ror => op.rorOF b
  | .rol => op.rolOF b
  | .smul => op.mulOF b .sext
  | .umul => op.mulOF b .zext
  | .bt => .stop

/-- `computeCF` of the class of the kind. -/
def computeCF (op : FlagOperation) : OpKind → Build Expr
  | .add => do
      let result ← deref op.result
      let src ← deref op.src
      b.create (.compare .ult result src)
  | .sub => do
      let dst ← deref op.dst
      let src ← deref op.src
      b.create (.compare .ult dst src)
  | .logic => b.createBool false
  | .inc | .dec => .stop
  | .shl => bitCF b op.dst createMsb
  | .shr => bitCF b op.dst createLsb
  | .ror => bitCF b op.result createMsb
  | .rol => bitCF b op.result createLsb
  | .smul => op.mulOF b .sext
  | .umul => op.mulOF b .zext
  | .bt => deref op.result

/-- The flag from an operation of the given kind; `none` for a flag that no method
computes. -/
def compute (op : FlagOperation) (kind : OpKind) : Eflag → Option (Build Expr)
  | .cf => some (op.computeCF b kind)
  | .pf => some (op.computePF b)
  | .zf => some (op.computeZF b)
  | .sf => some (op.computeSF b)
  | .of => some (op.computeOF b kind)
  | .af => none

end FlagOperation

/-! ### `Eflags` -/

/-- `Eflags`. A slot of `op_kinds_` that holds no kind is `none`, as an index into
`operations_` it is out of bounds. -/
structure Eflags where
  validSet : EflagSet
  operations : OpKind → FlagOperation
  opKinds : Fin OpKind.last → Option OpKind
  start : UInt32

/-- What the walk of `computeFlag` ends with. -/
inductive Eflags.Search
  /-- The operation of this kind makes the flag. -/
  | found (kind : OpKind)
  /-- The loop ran out. -/
  | missing
  /-- A slot was read that holds no kind. -/
  | unset
  deriving DecidableEq, Repr

namespace Eflags

/-- `Eflags::Eflags` -/
def init : Eflags :=
  { validSet := 0, operations := fun _ => .init, opKinds := fun _ => none, start := 0 }

/-- `Eflags::invalidate` -/
def invalidate (e : Eflags) (kind : OpKind) : Eflags :=
  { e with validSet := e.validSet &&& ~~~kind.getEflags }

/-- `Eflags::validate` -/
def validate (e : Eflags) (kind : OpKind) : Eflags :=
  { e with
    validSet := (e.validSet &&& ~~~kind.getUndefinedEflags) ||| kind.getAffectedEflags }

/-- `Eflags::isValid` -/
def isValid (e : Eflags) (jcc : JccKind) : Bool :=
  e.validSet &&& jcc.getEflags == jcc.getEflags

/-- The slot at an index. -/
def slot (i : UInt32) : Fin OpKind.last :=
  ⟨(i % 12).toNat, by
    have h : (i % 12).toNat = i.toNat % 12 := UInt32.toNat_mod i 12
    rw [h]
    exact Nat.mod_lt _ (by decide)⟩

/-- `Eflags::set` -/
def set (e : Eflags) (kind : OpKind) (result dst src : Option Expr) : Eflags :=
  let next := (e.start + 1) % 12
  { e.validate kind with
    operations := Function.update e.operations kind (.set kind result dst src)
    opKinds := Function.update e.opKinds (slot next) (some kind)
    start := next }

/-- The walk of `computeFlag` over the given offsets. -/
def search (e : Eflags) (flag : Eflag) : List Nat → Search
  | [] => .missing
  | i :: is =>
      match e.opKinds (slot (e.start - UInt32.ofNat i)) with
      | none => .unset
      | some kind =>
          if (e.operations kind).flags &&& flag.mask ≠ 0 then .found kind
          else e.search flag is

/-- The operation that `computeFlag` takes the flag from. -/
def find (e : Eflags) (flag : Eflag) : Search :=
  e.search flag (List.range OpKind.last)

variable (b : ExprBuilder)

/-- `Eflags::computeFlag`. `none` is the null pointer. -/
def computeFlag (e : Eflags) (flag : Eflag) : Build (Option Expr) :=
  match e.find flag with
  | .unset => .stop
  | .missing => .ret none
  | .found kind =>
      match (e.operations kind).compute b kind flag with
      | none => .ret none
      | some p => do
          let e ← p
          return some e

/-- The comparison of the operands of a subtraction that stands for a condition. -/
def subKind : JccKind → Option CompareKind
  | .b => some .ult
  | .be => some .ule
  | .l => some .slt
  | .le => some .sle
  | .z => some .equal
  | .s | .o | .p => none

/-- The comparison of a result with zero that stands for a condition, if the flags of
its operation allow it. -/
def zeroKind (flags : EflagSet) (jcc : JccKind) (inv : Bool) : Option CompareKind :=
  if flags &&& Eflag.sf.mask ≠ 0 ∧ jcc = .s then some (if inv then .sge else .slt)
  else if flags &&& Eflag.zf.mask ≠ 0 ∧ jcc = .z then
    some (if inv then .distinct else .equal)
  else none

/-- The part of `computeFastJcc` from `fast_jcc_s` on. -/
def computeZeroJcc (op : FlagOperation) (kind : OpKind) (jcc : JccKind) (inv : Bool) :
    Build (Option Expr) :=
  match zeroKind kind.getEflags jcc inv with
  | none => .ret none
  | some k => do
      let result ← FlagOperation.deref op.result
      let zero ← b.createConstant 0 result.bits
      let e ← b.create (.compare k result zero)
      return some e

/-- `Eflags::computeFastJcc` -/
def computeFastJcc (e : Eflags) (jcc : JccKind) (inv : Bool) : Build (Option Expr) :=
  match e.opKinds (slot e.start) with
  | none => .stop
  | some kind =>
      let op := e.operations kind
      if kind = .sub then
        match subKind jcc with
        | some k => do
            let dst ← FlagOperation.deref op.dst
            let src ← FlagOperation.deref op.src
            let e ← b.create (.compare (if inv then k.negate else k) dst src)
            return some e
        | none => if jcc = .s then computeZeroJcc b op kind jcc inv else .ret none
      else computeZeroJcc b op kind jcc inv

/-- The switch of `computeSlowJcc`. `JCC_Z` falls through to `JCC_O`. -/
def slowFlag (e : Eflags) : JccKind → Build (Option Expr)
  | .b | .be => e.computeFlag b .cf
  | .l | .le => do
      let sf ← e.computeFlag b .sf
      let of ← e.computeFlag b .of
      let sf ← FlagOperation.deref sf
      let of ← FlagOperation.deref of
      let e ← b.create (.compare .distinct sf of)
      return some e
  | .s => e.computeFlag b .sf
  | .z => do
      let _ ← e.computeFlag b .zf
      e.computeFlag b .of
  | .o => e.computeFlag b .of
  | .p => e.computeFlag b .pf

/-- The conditions that hold on equality, too. -/
def orEqual : JccKind → Bool
  | .be | .le => true
  | _ => false

/-- The disjunction for `equal`. -/
def slowEqual (e : Eflags) (jcc : JccKind) (r : Option Expr) : Build (Option Expr) :=
  if orEqual jcc then do
    let zf ← e.computeFlag b .zf
    let r ← FlagOperation.deref r
    let zf ← FlagOperation.deref zf
    let r ← b.createLOr r zf
    return some r
  else .ret r

/-- The negation for `inv`. -/
def slowInvert (inv : Bool) (r : Option Expr) : Build (Option Expr) :=
  if inv then do
    let r ← FlagOperation.deref r
    let r ← b.createLNot r
    return some r
  else .ret r

/-- `Eflags::computeSlowJcc` -/
def computeSlowJcc (e : Eflags) (jcc : JccKind) (inv : Bool) : Build (Option Expr) := do
  let r ← e.slowFlag b jcc
  let r ← e.slowEqual b jcc r
  slowInvert b inv r

/-- `Eflags::computeJcc` -/
def computeJcc (e : Eflags) (jcc : JccKind) (inv : Bool) : Build (Option Expr) :=
  if e.isValid jcc then do
    let r ← e.computeFastJcc b jcc inv
    match r with
    | some r => return some r
    | none => e.computeSlowJcc b jcc inv
  else .ret none

end Eflags

end Qsym
