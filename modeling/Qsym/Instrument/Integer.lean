import Qsym.Instrument.Handler

/-!
# Qsym.Instrument.Integer

The handlers of the integer instructions: shifts, arithmetic and logic, carries, sign
extensions of the accumulator, bit scans and bit tests, increments, division,
multiplication, `SETcc` and exchange-and-add.

A handler looks at its operands and, when none is symbolic, only lets go of what is known
about the flags and of what its destination held (`Handler.computing`).
-/

namespace Qsym

open Procedure

/-- The kinds of `Kind` that shift. -/
inductive ShiftKind
  | shl | lshr | ashr | rol | ror
  deriving DecidableEq, Repr

/-- `getOpKindShift` -/
def getOpKindShift : ShiftKind → OpKind
  | .rol => .rol
  | .ror => .ror
  | .ashr => .shr
  | .lshr => .shr
  | .shl => .shl

/-- `getOpKindBinary`. Other kinds are unreachable. -/
def getOpKindBinary {Reg : Type} : BinaryKind → Handler Reg OpKind
  | .add => return .add
  | .sub => return .sub
  | .and | .or | .xor => return .logic
  | _ => Stateful.stop

/-- `getOpKindIncDec`. Other kinds are unreachable. -/
def getOpKindIncDec {Reg : Type} : BinaryKind → Handler Reg OpKind
  | .add => return .inc
  | .sub => return .dec
  | _ => Stateful.stop

namespace ExprBuilder

variable (b : ExprBuilder)

def extendToDouble (e : Expr) (sign : Bool) : Build Expr :=
  if sign then b.createSExt e (e.bits * 2) else b.createZExt e (e.bits * 2)

def normalizeShiftCount (count : Expr) (bits modulo : Nat) : Build Expr := do
  let modulo ← b.createConstant modulo bits
  let count ← b.createZExt count bits
  b.createBinaryExpr .urem count modulo

/-- The rotations of `doShift`: `(x << lshift) | (x >> (bits - lshift))`. -/
def rotate (left : Bool) (dst count : Expr) (bits : Nat) : Build Expr := do
  let width ← b.createConstant bits bits
  let rest ← b.createSub width count
  let r ← b.createLShr dst (if left then rest else count)
  let l ← b.createShl dst (if left then count else rest)
  b.createOr r l

/-- The result of `doShift`. -/
def shiftExpr (kind : ShiftKind) (dst count : Expr) (bits : Nat) : Build Expr :=
  match kind with
  | .shl => b.createShl dst count
  | .lshr => b.createLShr dst count
  | .ashr => b.createAShr dst count
  | .rol => b.rotate true dst count bits
  | .ror => b.rotate false dst count bits

/-- The result of `doShiftd`. -/
def shiftdExpr (left : Bool) (dst src count : Expr) (bits : Nat) : Build Expr := do
  -- modulo by 32
  let count ← b.normalizeShiftCount count (bits * 2) 32
  if left then do
    let e ← b.createConcat dst src
    let e ← b.createShl e count
    b.createExtract e bits bits
  else do
    let e ← b.createConcat src dst
    let e ← b.createLShr e count
    b.createExtract e 0 bits

/-- The loop of `doBsf` and `doBsr` over the given bits: the last bit set wins. -/
def scanBits (src one : Expr) (bits : Nat) : List Nat → Expr → Build Expr
  | [], res => .ret res
  | i :: is, res => do
      let bit ← b.createExtract src i 1
      let isOne ← b.createEqual bit one
      let index ← b.createConstant i bits
      let res ← b.createIte isOne index res
      scanBits src one bits is res

/-- `doBsf`. The loop starts below the highest bit. -/
def doBsf (src : Expr) : Build Expr := do
  let one ← b.createConstant 1 1
  let res ← b.createConstant src.bits src.bits
  b.scanBits src one src.bits (List.range (src.bits - 1)).reverse res

def doBsr (src : Expr) : Build Expr := do
  let one ← b.createConstant 1 1
  let res ← b.createConstant src.bits src.bits
  b.scanBits src one src.bits (List.range src.bits) res

/-- The loop of `instrumentBswapReg`: the bytes from the lowest up. -/
def createBytes (e : Expr) : List Nat → Build (List Expr)
  | [] => return []
  | i :: is => do
      let x ← b.createExtract e (i * 8) 8
      let xs ← createBytes e is
      return x :: xs

/-- The result of `instrumentBswapReg`: the lowest byte comes first. -/
def swapBytes (e : Expr) : Build Expr := do
  let exprs ← b.createBytes e (List.range (e.bits / 8))
  b.createConcatAll exprs

end ExprBuilder

/-- The kinds of `doBt`: none for `BT`, and `Or`, `And` and `Xor` for the bit that is set,
reset or complemented. -/
inductive BtKind
  | invalid | or | and | xor
  deriving DecidableEq, Repr

namespace BtKind

/-- The operation on the destination. -/
def op : BtKind → Option BinaryKind
  | invalid => none
  | or => some .or
  | and => some .and
  | xor => some .xor

/-- `1 << imm` for an `int`, as an `ADDRINT`: the count is taken modulo 32 and the result
is sign-extended. -/
def bit (imm : Nat) : Addr :=
  ((1 : BitVec 32) <<< (imm % 32)).signExtend 64

def mask (kind : BtKind) (imm : Nat) : Addr :=
  match kind with
  | invalid => 0
  | or | xor => bit imm
  | and => ~~~(bit imm)

end BtKind

namespace Process

open Handler

variable {Reg : Type} [DecidableEq Reg] (T : Process Reg)

/-! ### Shifts -/

omit [DecidableEq Reg] in
def doShift (kind : ShiftKind) (dst src : Expr) (bits : Nat) : Handler Reg Expr := do
  let count ← T.builder.normalizeShiftCount src bits bits
  let res ← T.builder.shiftExpr kind dst count bits
  setEflags (getOpKindShift kind) res (some dst) (some count)
  return res

/-- A shift whose result goes to `put`. -/
def instrumentShift (operands : Handler Reg (Option (Expr × Expr))) (kind : ShiftKind)
    (bits : Nat) (put : Option Expr → Handler Reg Unit) : Handler Reg Unit :=
  computing operands (invalidateEflags (getOpKindShift kind)) fun (dst, src) => do
    let res ← T.doShift kind dst src bits
    put (some res)

def instrumentShiftRegImm (dst : Reg) (imm : Addr) (kind : ShiftKind) : Handler Reg Unit :=
  T.instrumentShift (T.getExprFromRegImm dst imm) kind (T.pin.regSize dst * 8)
    (T.setExprToReg dst)

def instrumentShiftRegCl (dst : Reg) (kind : ShiftKind) : Handler Reg Unit :=
  T.instrumentShift (T.getExprFromRegReg dst T.pin.regCl) kind (T.pin.regSize dst * 8)
    (T.setExprToReg dst)

def instrumentShiftMemImm (m : MemArg Reg) (imm : Addr) (kind : ShiftKind) :
    Handler Reg Unit :=
  T.instrumentShift (T.getExprFromMemImm m imm) kind (m.size * 8) (T.setExprToMem m.addr m.size)

def instrumentShiftMemCl (m : MemArg Reg) (kind : ShiftKind) : Handler Reg Unit :=
  T.instrumentShift (T.getExprFromMemReg m T.pin.regCl) kind (m.size * 8)
    (T.setExprToMem m.addr m.size)

/-- `doShiftd`. The kind is `Shl` or else `LShr`. -/
def doShiftd (left : Bool) (dst src count : Expr) (bits : Nat) : Handler Reg Expr := do
  let res ← T.builder.shiftdExpr left dst src count bits
  -- TODO: add eflag support
  invalidateEflags (getOpKindShift (if left then .shl else .lshr))
  return res

/-- A double shift whose result goes to `put`. -/
def instrumentShiftd (operands : Handler Reg (Option (Expr × Expr × Expr))) (left : Bool)
    (bits : Nat) (put : Option Expr → Handler Reg Unit) : Handler Reg Unit :=
  computing operands (invalidateEflags (getOpKindShift (if left then .shl else .lshr)))
    fun (dst, src, count) => do
      let res ← T.doShiftd left dst src count bits
      put (some res)

def instrumentShiftdRegRegImm (dst src : Reg) (imm : Addr) (left : Bool) : Handler Reg Unit :=
  T.instrumentShiftd (T.getExprFromRegRegImm dst src imm) left (T.pin.regSize dst * 8)
    (T.setExprToReg dst)

def instrumentShiftdRegRegCl (dst src : Reg) (left : Bool) : Handler Reg Unit :=
  T.instrumentShiftd (T.getExprFromRegRegReg dst src T.pin.regCl) left
    (T.pin.regSize dst * 8) (T.setExprToReg dst)

def instrumentShiftdMemRegImm (m : MemArg Reg) (src : Reg) (imm : Addr) (left : Bool) :
    Handler Reg Unit :=
  T.instrumentShiftd (T.getExprFromMemRegImm m src imm) left (m.size * 8)
    (T.setExprToMem m.addr m.size)

def instrumentShiftdMemRegCl (m : MemArg Reg) (src : Reg) (left : Bool) : Handler Reg Unit :=
  T.instrumentShiftd (T.getExprFromMemRegReg m src T.pin.regCl) left (m.size * 8)
    (T.setExprToMem m.addr m.size)

/-! ### Arithmetic and logic -/

omit [DecidableEq Reg] in
def doBinary (kind : BinaryKind) (op : OpKind) (dst src : Expr) : Handler Reg Expr := do
  let res ← T.builder.createBinaryExpr kind dst src
  setEflags op res (some dst) (some src)
  return res

/-- A binary operation whose result goes to `put`, if it is written. -/
def instrumentBinary (operands : Handler Reg (Option (Expr × Expr))) (kind : BinaryKind)
    (write : Bool) (put : Option Expr → Handler Reg Unit) : Handler Reg Unit := do
  let op ← getOpKindBinary kind
  computing operands (invalidateEflags op) fun (dst, src) => do
    let res ← T.doBinary kind op dst src
    if write then put (some res)

def instrumentBinaryRegReg (dst src : Reg) (kind : BinaryKind) (write : Bool) :
    Handler Reg Unit :=
  T.instrumentBinary (T.getExprFromRegReg dst src) kind write (T.setExprToReg dst)

def instrumentBinaryRegImm (dst : Reg) (imm : Addr) (kind : BinaryKind) (write : Bool) :
    Handler Reg Unit :=
  T.instrumentBinary (T.getExprFromRegImm dst imm) kind write (T.setExprToReg dst)

def instrumentBinaryRegMem (dst : Reg) (m : MemArg Reg) (kind : BinaryKind) (write : Bool) :
    Handler Reg Unit :=
  T.instrumentBinary (T.getExprFromRegMem dst m) kind write (T.setExprToReg dst)

def instrumentBinaryMemReg (m : MemArg Reg) (src : Reg) (kind : BinaryKind) (write : Bool) :
    Handler Reg Unit :=
  T.instrumentBinary (T.getExprFromMemReg m src) kind write (T.setExprToMem m.addr m.size)

def instrumentBinaryMemImm (m : MemArg Reg) (imm : Addr) (kind : BinaryKind) (write : Bool) :
    Handler Reg Unit :=
  T.instrumentBinary (T.getExprFromMemImm m imm) kind write (T.setExprToMem m.addr m.size)

/-! ### Carries -/

omit [DecidableEq Reg] in
def doCarry (kind : BinaryKind) (op : OpKind) (dst src cf : Expr) : Handler Reg Expr := do
  let dst ← T.builder.createBinaryExpr kind dst cf
  let res ← T.builder.createBinaryExpr kind dst src
  setEflags op res (some dst) (some src)
  return res

/-- An operation with carry, which is an addition or a subtraction. -/
def instrumentCarry (operands : Handler Reg (Option (Expr × Expr × Expr))) (kind : BinaryKind)
    (put : Option Expr → Handler Reg Unit) : Handler Reg Unit :=
  if kind = .add ∨ kind = .sub then do
    let op ← getOpKindBinary kind
    computing operands (invalidateEflags op) fun (dst, src, cf) => do
      let res ← T.doCarry kind op dst src cf
      put (some res)
  else Stateful.stop

def instrumentCarryRegReg (dst src : Reg) (kind : BinaryKind) : Handler Reg Unit :=
  T.instrumentCarry (T.getExprFromRegRegCf dst src) kind (T.setExprToReg dst)

def instrumentCarryRegImm (dst : Reg) (imm : Addr) (kind : BinaryKind) : Handler Reg Unit :=
  T.instrumentCarry (T.getExprFromRegImmCf dst imm) kind (T.setExprToReg dst)

def instrumentCarryRegMem (dst : Reg) (m : MemArg Reg) (kind : BinaryKind) :
    Handler Reg Unit :=
  T.instrumentCarry (T.getExprFromRegMemCf dst m) kind (T.setExprToReg dst)

def instrumentCarryMemReg (m : MemArg Reg) (src : Reg) (kind : BinaryKind) :
    Handler Reg Unit :=
  T.instrumentCarry (T.getExprFromMemRegCf m src) kind (T.setExprToMem m.addr m.size)

def instrumentCarryMemImm (m : MemArg Reg) (imm : Addr) (kind : BinaryKind) :
    Handler Reg Unit :=
  T.instrumentCarry (T.getExprFromMemImmCf m imm) kind (T.setExprToMem m.addr m.size)

/-! ### Sign extensions of the accumulator -/

def instrumentCbw (dst src : Reg) : Handler Reg Unit :=
  computing (T.getExprFromReg src) (T.clearExprFromReg dst) fun eSrc => do
    let e ← T.builder.createSExt eSrc (T.pin.regSize dst * 8)
    T.setExprToReg dst (some e)

def instrumentCwd (dx ax : Reg) : Handler Reg Unit :=
  computing (T.getExprFromReg ax) (T.clearExprFromReg dx) fun eAx => do
    let bits := T.pin.regSize ax * 8
    let e ← T.builder.createSExt eAx (bits * 2)
    let e ← T.builder.createExtract e bits bits
    T.setExprToReg dx (some e)

/-! ### Bit scans and `BSWAP` -/

def doBs (dst : Reg) (src : Expr) (inv : Bool) : Handler Reg Unit := do
  -- bs needs to change ZF, but its behavior is same with sub
  -- except for undefined flags. so, reuse sub's logic
  let zero ← T.builder.createConstant 0 src.bits
  setEflags .sub src (some src) (some zero)
  let res ← if inv then T.builder.doBsr src else T.builder.doBsf src
  T.setExprToReg dst (some res)

def instrumentBsRegReg (dst src : Reg) (inv : Bool) : Handler Reg Unit :=
  computing (T.getExprFromReg src)
    (do
      T.clearExprFromReg dst
      invalidateEflags .sub)
    fun eSrc => T.doBs dst eSrc inv

/-- `instrumentBsRegMem`. It is the source that is cleared. -/
def instrumentBsRegMem (dst : Reg) (m : MemArg Reg) (inv : Bool) : Handler Reg Unit :=
  computing (T.getExprFromMemSrc m)
    (do
      clearExprFromMem m.addr m.size
      invalidateEflags .sub)
    fun eSrc => T.doBs dst eSrc inv

def instrumentBswapReg (dst : Reg) : Handler Reg Unit :=
  computing (T.getExprFromReg dst) (return ()) fun eDst => do
    let res ← T.builder.swapBytes eDst
    T.setExprToReg dst (some res)

/-! ### Bit tests -/

omit [DecidableEq Reg] in
/-- `doBt`. `none` is the null pointer. -/
def doBt (dst : Expr) (imm bits : Nat) (kind : BtKind) : Handler Reg (Option Expr) := do
  let imm := imm &&& (bits - 1)
  let bit ← T.builder.createExtract dst imm 1
  let bit ← FlagOperation.bitToBool T.builder bit
  setEflags .bt bit none none
  match kind.op with
  | some op => do
      let mask ← T.builder.createConstant (kind.mask imm).toNat bits
      let dst ← T.builder.createBinaryExpr op dst mask
      return some dst
  | none => return none

/-- What the handlers of bit tests do with their operands. -/
def bitTest (eDst : Option Expr) (imm bits : Nat) (kind : BtKind)
    (put : Option Expr → Handler Reg Unit) : Handler Reg Unit := do
  match eDst with
  | none => invalidateEflags .bt
  | some eDst => do
      match ← T.doBt eDst imm bits kind with
      | some res => put (some res)
      | none => return ()

def instrumentBtRegReg (dst src : Reg) (kind : BtKind) : Handler Reg Unit := do
  let eDst ← T.getExprFromReg dst
  -- Concretize for non-linear operation
  T.concretizeReg src
  T.bitTest eDst (T.getRegValue src) (T.pin.regSize dst * 8) kind (T.setExprToReg dst)

def instrumentBtRegImm (dst : Reg) (imm : Addr) (kind : BtKind) : Handler Reg Unit := do
  let eDst ← T.getExprFromReg dst
  T.bitTest eDst imm.toNat (T.pin.regSize dst * 8) kind (T.setExprToReg dst)

def instrumentBtMemReg (m : MemArg Reg) (src : Reg) (kind : BtKind) : Handler Reg Unit := do
  T.concretizeReg src
  let eDst ← T.getExprFromMem m.addr m.size
  T.bitTest eDst (T.getRegValue src) (m.size * 8) kind (T.setExprToMem m.addr m.size)

def instrumentBtMemImm (m : MemArg Reg) (imm : Addr) (kind : BtKind) : Handler Reg Unit := do
  let eDst ← T.getExprFromMem m.addr m.size
  T.bitTest eDst imm.toNat (m.size * 8) kind (T.setExprToMem m.addr m.size)

/-! ### Increments -/

/-- `doIncDec` of a symbolic operand -/
def doIncDec (kind : BinaryKind) (op : OpKind) (dst : Expr) : Handler Reg Expr := do
  let one ← T.builder.createConstant 1 dst.bits
  let res ← T.builder.createBinaryExpr kind dst one
  setEflags op res (some dst) (some one)
  return res

/-- An increment or a decrement. The operand is looked at before its kind. -/
def instrumentIncDec (operand : Handler Reg (Option Expr)) (kind : BinaryKind)
    (put : Option Expr → Handler Reg Unit) : Handler Reg Unit := do
  let eDst ← operand
  let op ← getOpKindIncDec kind
  computing (return eDst) (invalidateEflags op) fun eDst => do
    let res ← T.doIncDec kind op eDst
    put (some res)

def instrumentIncDecReg (dst : Reg) (kind : BinaryKind) : Handler Reg Unit :=
  T.instrumentIncDec (T.getExprFromReg dst) kind (T.setExprToReg dst)

def instrumentIncDecMem (m : MemArg Reg) (kind : BinaryKind) : Handler Reg Unit :=
  T.instrumentIncDec (T.getExprFromMemSrc m) kind (T.setExprToMem m.addr m.size)

/-! ### Division -/

/-- The quotient or the remainder of `doDiv`. -/
def divPart (kind : BinaryKind) (div src : Expr) (bits : Nat) : Build Expr := do
  let e ← T.builder.createBinaryExpr kind div src
  T.builder.createExtract e 0 bits

def doDiv (regH regL : Reg) (src div : Expr) (sign : Bool) : Handler Reg Unit := do
  let bits := T.pin.regSize regH * 8
  let src ← T.builder.extendToDouble src sign
  if src.bits = div.bits then do
    let q ← T.divPart (if sign then .sdiv else .udiv) div src bits
    let r ← T.divPart (if sign then .srem else .urem) div src bits
    T.setExprToReg regL (some q)
    T.setExprToReg regH (some r)
  else Stateful.stop

/-- A division of `regH:regL` by an operand that is given first. -/
def instrumentDiv (operands : Handler Reg (Option (Expr × Expr × Expr))) (regL regH : Reg)
    (sign : Bool) : Handler Reg Unit := do
  -- DIV: eflags are undefined
  invalidateEflags .umul
  computing operands (return ()) fun (src, eRegL, eRegH) => do
    let div ← T.builder.createConcat eRegH eRegL
    T.doDiv regH regL src div sign

def instrumentDivReg (src : Reg) (sign : Bool) : Handler Reg Unit :=
  let regL := T.pin.getAx (T.pin.regSize src)
  let regH := T.pin.getDx (T.pin.regSize src)
  T.instrumentDiv (T.getExprFromRegRegReg src regL regH) regL regH sign

def instrumentDivMem (m : MemArg Reg) (sign : Bool) : Handler Reg Unit :=
  let regL := T.pin.getAx m.size
  let regH := T.pin.getDx m.size
  T.instrumentDiv (T.getExprFromMemRegReg m regL regH) regL regH sign

/-! ### Multiplication -/

def doMul (regL regH : Reg) (src eRegL : Expr) (bits : Nat) (sign : Bool) :
    Handler Reg Unit := do
  let src ← T.builder.extendToDouble src sign
  let eRegL ← T.builder.extendToDouble eRegL sign
  let res ← T.builder.createMul src eRegL
  setEflags .umul res (some eRegL) (some src)
  let resL ← T.builder.createExtract res 0 bits
  T.setExprToReg regL (some resL)
  if regH ≠ T.pin.regInvalid then do
    let resH ← T.builder.createExtract res bits bits
    T.setExprToReg regH (some resH)

/-- A multiplication into `regH:regL`, where `regH` may be missing. -/
def instrumentMul (operands : Handler Reg (Option (Expr × Expr))) (regL regH : Reg)
    (bits : Nat) (sign : Bool) : Handler Reg Unit :=
  computing operands
    (do
      invalidateEflags .umul
      T.clearExprFromReg regL
      if regH ≠ T.pin.regInvalid then T.clearExprFromReg regH)
    fun (src, eRegL) => T.doMul regL regH src eRegL bits sign

/-- The static `instrumentMulReg` -/
def instrumentMulRegSign (src regL regH : Reg) (sign : Bool) : Handler Reg Unit :=
  T.instrumentMul (T.getExprFromRegReg src regL) regL regH (T.pin.regSize src * 8) sign

/-- The static `instrumentMulMem` -/
def instrumentMulMemSign (m : MemArg Reg) (regL regH : Reg) (sign : Bool) :
    Handler Reg Unit :=
  T.instrumentMul (T.getExprFromMemReg m regL) regL regH (m.size * 8) sign

def instrumentMulReg (src regL regH : Reg) : Handler Reg Unit :=
  T.instrumentMulRegSign src regL regH false

def instrumentMulMem (m : MemArg Reg) (regL regH : Reg) : Handler Reg Unit :=
  T.instrumentMulMemSign m regL regH false

def instrumentIMulReg (src : Reg) : Handler Reg Unit :=
  T.instrumentMulRegSign src (T.pin.getAx (T.pin.regSize src))
    (T.pin.getDx (T.pin.regSize src)) true

def instrumentIMulMem (m : MemArg Reg) : Handler Reg Unit :=
  T.instrumentMulMemSign m (T.pin.getAx m.size) (T.pin.getDx m.size) true

def instrumentIMulRegReg (dst src : Reg) : Handler Reg Unit :=
  T.instrumentMulRegSign src dst T.pin.regInvalid true

def instrumentIMulRegMem (dst : Reg) (m : MemArg Reg) : Handler Reg Unit :=
  T.instrumentMulMemSign m dst T.pin.regInvalid true

/-- A multiplication by an immediate. -/
def instrumentIMulImm (operands : Handler Reg (Option (Expr × Expr))) (dst : Reg) :
    Handler Reg Unit :=
  computing operands
    (do
      T.clearExprFromReg dst
      invalidateEflags .smul)
    fun (src, imm) => do
      let res ← T.builder.createMul src imm
      setEflags .smul res (some src) (some imm)
      T.setExprToReg dst (some res)

def instrumentIMulRegRegImm (dst src : Reg) (imm : Addr) : Handler Reg Unit :=
  T.instrumentIMulImm (T.getExprFromRegImm src imm) dst

def instrumentIMulRegMemImm (dst : Reg) (m : MemArg Reg) (imm : Addr) : Handler Reg Unit :=
  T.instrumentIMulImm (T.getExprFromMemImm m imm) dst

/-! ### Negations -/

/-- `NEG` or `NOT` -/
def instrumentNegNot (operand : Handler Reg (Option Expr)) (kind : UnaryKind)
    (put : Option Expr → Handler Reg Unit) : Handler Reg Unit :=
  computing operand (invalidateEflags .logic) fun eDst => do
    let res ← T.builder.create (.unary kind eDst)
    setEflags .logic res (some eDst) none
    put (some res)

def instrumentNegNotReg (dst : Reg) (kind : UnaryKind) : Handler Reg Unit :=
  T.instrumentNegNot (T.getExprFromReg dst) kind (T.setExprToReg dst)

def instrumentNegNotMem (m : MemArg Reg) (kind : UnaryKind) : Handler Reg Unit :=
  T.instrumentNegNot (T.getExprFromMemSrc m) kind (T.setExprToMem m.addr m.size)

/-! ### `SETcc` -/

def doSet (jcc : JccKind) (inv : Bool) : Handler Reg (Option Expr) :=
  T.computeJccAsBV jcc inv 8

def instrumentSetReg (dst : Reg) (jcc : JccKind) (inv : Bool) : Handler Reg Unit := do
  let res ← T.doSet jcc inv
  T.setExprToReg dst res

def instrumentSetMem (m : MemArg Reg) (jcc : JccKind) (inv : Bool) : Handler Reg Unit := do
  T.makeAddrConcrete m
  let res ← T.doSet jcc inv
  setExprToMemByte m.addr res

/-! ### Exchange-and-add -/

/-- The sum goes to the destination and the destination to the source. -/
def instrumentXadd (operands : Handler Reg (Option (Expr × Expr)))
    (putDst putSrc : Option Expr → Handler Reg Unit) : Handler Reg Unit :=
  computing operands (return ()) fun (dst, src) => do
    let tmp ← T.builder.createAdd src dst
    putDst (some tmp)
    putSrc (some dst)

def instrumentXaddRegReg (dst src : Reg) : Handler Reg Unit :=
  T.instrumentXadd (T.getExprFromRegReg dst src) (T.setExprToReg dst) (T.setExprToReg src)

def instrumentXaddMemReg (m : MemArg Reg) (src : Reg) : Handler Reg Unit :=
  T.instrumentXadd (T.getExprFromMemReg m src) (T.setExprToMem m.addr m.size)
    (T.setExprToReg src)

end Process

end Qsym
