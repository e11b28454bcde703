import Qsym.Flags.Eflags
import Qsym.Procedure.Stateful
import Qsym.Shadow.Registers

/-!
# Qsym.Instrument.Handler

The **handlers** that the tool inserts before instructions, and what they are made of.
A handler works on the shadow of the process (`Shadow`: registers, memory and flags) and
makes requests to the solver and to the call stack manager. It looks at the process
itself, whose registers and memory do not change while handlers run, as a handler is
called before its instruction (`Process`).

The requests of a handler are its log, so what has been given to the solver stays given.
A request about the value of an operand names the operand as well; this is what the log
lines of the tool print, and the solver does not see it.
-/

namespace Qsym

open Procedure

/-- The registers the handlers name, and the classes they ask for. -/
structure Registers (Reg : Type) extends Pin Reg where
  regInvalid : Reg
  regAl : Reg
  regAx : Reg
  regEax : Reg
  regRax : Reg
  regDl : Reg
  regDx : Reg
  regEdx : Reg
  regRdx : Reg
  regCl : Reg
  regEbx : Reg
  regEcx : Reg
  regGsi : Reg
  regGdi : Reg
  regStackPtr : Reg
  regEflags : Reg
  regIsFlags : Reg → Bool

namespace Registers

variable {Reg : Type} (P : Registers Reg)

/-- `getAx` of a size -/
def getAx : Nat → Reg
  | 1 => P.regAl
  | 2 => P.regAx
  | 4 => P.regEax
  | 8 => P.regRax
  | _ => P.regInvalid

/-- `getDx` of a size -/
def getDx : Nat → Reg
  | 1 => P.regDl
  | 2 => P.regDx
  | 4 => P.regEdx
  | 8 => P.regRdx
  | _ => P.regInvalid

end Registers

/-- `MEM_ARG`: how the address of an operand is made up, the address and the size. -/
structure MemArg (Reg : Type) where
  base : Reg
  index : Reg
  addr : Addr
  size : Nat
  disp : Addr
  scale : Nat

/-- An operand with a value. -/
inductive Operand (Reg : Type)
  | reg (r : Reg)
  | mem (addr : Addr) (size : Nat)
  deriving DecidableEq

/-- The calls of `g_solver` and of `g_call_stack_manager`. -/
inductive Request (Reg : Type)
  | addJcc (e : Expr) (taken : Bool) (pc : Nat)
  | addAddr (e : Expr) (addr : Addr)
  | addValue (operand : Operand Reg) (e : Expr) (val : Nat)
  | solveAll (operand : Operand Reg) (e : Expr) (val : Nat)
  | visitBasicBlock (pc : Nat)
  | visitCall (addr : Addr)
  | visitRet (addr : Addr)
  deriving DecidableEq

/-- The shadow of a thread and of the memory. -/
@[ext]
structure Shadow where
  regs : RegExprs
  memory : Memory
  eflags : Eflags

/-- A handler, or a part of one. -/
abbrev Handler (Reg : Type) : Type → Type :=
  Stateful MethodCall Expr World Shadow (Request Reg)

/-- What handlers are called with: the registers of the process by the bytes of the full
ones, its memory, and the builder in use. -/
structure Process (Reg : Type) where
  pin : Registers Reg
  builder : ExprBuilder
  context : Reg → Nat → BitVec 8
  memory : Addr → BitVec 8

namespace ExprBuilder

variable (b : ExprBuilder)

abbrev createZExt (e : Expr) (bits : Nat) : Build Expr := b.create (.ext .zext e bits)
abbrev createShl (l r : Expr) : Build Expr := b.create (.binary .shl l r)
abbrev createLShr (l r : Expr) : Build Expr := b.create (.binary .lshr l r)
abbrev createAShr (l r : Expr) : Build Expr := b.create (.binary .ashr l r)

/-- `boolToBit` -/
def boolToBit (e : Expr) (bits : Nat) : Build Expr := do
  let e1 ← b.createConstant 1 bits
  let e0 ← b.createConstant 0 bits
  b.createIte e e1 e0

end ExprBuilder

namespace Handler

variable {Reg α : Type}

/-- A method of the shadow registers. -/
def onRegs (f : RegExprs → Build (α × RegExprs)) : Handler Reg α :=
  fun s => (f s.regs).bind fun x => .ret (x.1, { s with regs := x.2 }, [])

/-- A method of `g_memory`. -/
def onMemory (f : Memory → Build (α × Memory)) : Handler Reg α :=
  fun s => (f s.memory).bind fun x => .ret (x.1, { s with memory := x.2 }, [])

/-- A method of `eflags_` that changes it. -/
def onEflags (f : Eflags → Eflags) : Handler Reg Unit :=
  fun s => .ret ((), { s with eflags := f s.eflags }, [])

/-- A call of the solver or of the call stack manager. -/
def request (q : Request Reg) : Handler Reg Unit :=
  Stateful.tell q

/-! ### Methods that do not look at the process -/

/-- `getExprFromMem(addr)` -/
def getExprFromMemByte (addr : Addr) : Handler Reg (Option Expr) :=
  onMemory fun mem => .ret (mem.peek addr, mem)

/-- `setExprToMem(addr, e)` -/
def setExprToMemByte (addr : Addr) (e : Option Expr) : Handler Reg Unit :=
  onMemory fun mem => do
    let mem ← mem.setByteToMem addr e
    return ((), mem)

def clearExprFromMem (addr : Addr) (size : Nat) : Handler Reg Unit :=
  onMemory fun mem => do
    let mem ← mem.clearExprFromMem addr size
    return ((), mem)

def setEflags (kind : OpKind) (result : Expr) (dst src : Option Expr) : Handler Reg Unit :=
  onEflags fun e => e.set kind (some result) dst src

def invalidateEflags (kind : OpKind) : Handler Reg Unit :=
  onEflags fun e => e.invalidate kind

/-- The shape of most handlers: what is done if no operand is symbolic, and what if the
operands are given by expressions. -/
def computing (operands : Handler Reg (Option α)) (concrete : Handler Reg Unit)
    (compute : α → Handler Reg Unit) : Handler Reg Unit := do
  match ← operands with
  | none => concrete
  | some x => compute x

end Handler

namespace Process

open Handler

variable {Reg : Type} [DecidableEq Reg] (T : Process Reg)

/-! ### `ThreadContext` -/

def getExprFromReg (r : Reg) : Handler Reg (Option Expr) :=
  onRegs fun s => T.pin.getExprFromReg T.builder s T.context r

/-- `getExprFromReg(ctx, r, off, 1)` -/
def getExprFromRegByte (r : Reg) (off : Nat) : Handler Reg (Option Expr) :=
  onRegs fun s =>
    match T.pin.regToRegAddr r with
    | none => .stop
    | some addr => .ret (s (addr + off), s)

def setExprToReg (r : Reg) (e : Option Expr) : Handler Reg Unit :=
  onRegs fun s => do
    let s ← T.pin.setExprToReg T.builder s r e
    return ((), s)

/-- `setExprToReg(r, e, off, 1)` -/
def setExprToRegByte (r : Reg) (e : Option Expr) (off : Nat) : Handler Reg Unit :=
  onRegs fun s => do
    let s ← if off = 0 then T.pin.zeroExtend s r else .ret s
    match T.pin.regToRegAddr r with
    | none => .stop
    | some addr =>
        let s ← RegExprs.cells.setExpr s (addr + off) e
        return ((), s)

/-- `clearExprFromReg(r, off, size)` -/
def clearExprFromRegPart (r : Reg) (off : Nat) (size : Option Nat) : Handler Reg Unit :=
  onRegs fun s => do
    let s ← T.pin.clearExprFromReg s r off size
    return ((), s)

def clearExprFromReg (r : Reg) : Handler Reg Unit :=
  T.clearExprFromRegPart r 0 none

omit [DecidableEq Reg] in
/-- The bytes of a register, the lowest first. -/
def regBytes (r : Reg) : List Nat :=
  (T.pin.viewBytes r).map fun k => (T.context k.1 k.2).toNat

/-- `getRegValue` -/
def getRegValue (r : Reg) : Nat :=
  Bytes.littleEndian (T.regBytes r)

def getRegValueExpr (r : Reg) : Build Expr :=
  T.builder.createConstant (T.getRegValue r) (T.pin.regSize r * 8)

/-! ### `g_memory` -/

def getExprFromMem (addr : Addr) (size : Nat) : Handler Reg (Option Expr) :=
  onMemory fun mem => mem.getExprFromMem T.builder addr T.memory size

def setExprToMem (addr : Addr) (size : Nat) (e : Option Expr) : Handler Reg Unit :=
  onMemory fun mem => do
    let mem ← mem.setExprToMem T.builder addr size e
    return ((), mem)

/-- `getMemValue` -/
def getMemValue (addr : Addr) (size : Nat) : Nat :=
  Bytes.littleEndian ((Memory.addresses addr size).map fun a => (T.memory a).toNat)

def getMemValueExpr (addr : Addr) (size : Nat) : Build Expr :=
  T.builder.createConstant (T.getMemValue addr size) (size * 8)

/-! ### `eflags_` -/

def computeJcc (jcc : JccKind) (inv : Bool) : Handler Reg (Option Expr) := do
  let s ← Stateful.get
  s.eflags.computeJcc T.builder jcc inv

def computeJccAsBV (jcc : JccKind) (inv : Bool) (size : Nat) : Handler Reg (Option Expr) := do
  match ← T.computeJcc jcc inv with
  | some e => do
      let e ← T.builder.boolToBit e size
      return some e
  | none => return none

def computeCfAsExpr (size : Nat) : Handler Reg (Option Expr) :=
  T.computeJccAsBV .b false size

/-! ### `getAddrExpr` -/

/-- The width of an `ADDRINT`. -/
def addrBits : Nat := 64

def getBaseExpr (base : Reg) (disp : Addr) (e : Option Expr) : Build (Option Expr) :=
  match e with
  | some e =>
      if disp ≠ 0 then do
        let disp ← T.builder.createConstant disp.toNat e.bits
        let e ← T.builder.createAdd e disp
        return some e
      else return some e
  | none =>
      if base ≠ T.pin.regInvalid then do
        let e ← T.builder.createConstant (T.getRegValue base + disp.toNat) addrBits
        return some e
      else if disp ≠ 0 then do
        let e ← T.builder.createConstant disp.toNat addrBits
        return some e
      else return none

def getIndexExpr (index : Reg) (scale : Nat) (e : Option Expr) : Build (Option Expr) :=
  match e with
  | some e =>
      if scale ≠ 1 then do
        let scale ← T.builder.createConstant scale e.bits
        let e ← T.builder.createMul e scale
        return some e
      else return some e
  | none =>
      if index ≠ T.pin.regInvalid then do
        let e ← T.builder.createConstant (T.getRegValue index * scale) addrBits
        return some e
      else return none

def createAddrExpr (base index : Option Expr) : Build Expr :=
  match base, index with
  | some base, some index => T.builder.createAdd base index
  | none, some index => .ret index
  | some base, none => .ret base
  | none, none => .stop

/-- The extension of a part of an address to the width of addresses. -/
def extendPart (e : Option Expr) : Build (Option Expr) :=
  match e with
  | some e =>
      if e.bits ≤ addrBits then do
        let e ← T.builder.createZExt e addrBits
        return some e
      else .stop
  | none => return none

/-- What `getAddrExpr` makes of the expressions of the registers. -/
def addrExpr (base index : Reg) (disp : Addr) (scale : Nat) (eBase eIndex : Option Expr) :
    Build (Option Expr) :=
  match eBase, eIndex with
  | none, none => return none
  | eBase, eIndex => do
      let eBase ← T.extendPart eBase
      let eIndex ← T.extendPart eIndex
      let eBase ← T.getBaseExpr base disp eBase
      let eIndex ← T.getIndexExpr index scale eIndex
      let e ← T.createAddrExpr eBase eIndex
      return some e

/-- The expression of a register of an address, if there is such a register. -/
def getExprFromAddrReg (r : Reg) : Handler Reg (Option Expr) :=
  if r ≠ T.pin.regInvalid then T.getExprFromReg r else return none

def getAddrExpr (base index : Reg) (disp : Addr) (scale : Nat) : Handler Reg (Option Expr) := do
  let eBase ← T.getExprFromAddrReg base
  let eIndex ← T.getExprFromAddrReg index
  T.addrExpr base index disp scale eBase eIndex

/-! ### Concretisation -/

/-- `concretizeReg` of a register whose expression is known -/
def concretizeRegExpr (r : Reg) (e : Expr) : Handler Reg Unit := do
  request (.addValue (.reg r) e (T.getRegValue r))
  T.clearExprFromReg r

def concretizeReg (r : Reg) : Handler Reg Unit := do
  match ← T.getExprFromReg r with
  | none => return ()
  | some e => T.concretizeRegExpr r e

/-- `concretizeMem` of memory whose expression is known -/
def concretizeMemExpr (addr : Addr) (size : Nat) (e : Expr) : Handler Reg Unit := do
  request (.addValue (.mem addr size) e (T.getMemValue addr size))
  clearExprFromMem addr size

def concretizeMem (addr : Addr) (size : Nat) : Handler Reg Unit := do
  match ← T.getExprFromMem addr size with
  | none => return ()
  | some e => T.concretizeMemExpr addr size e

def makeAddrConcrete (m : MemArg Reg) : Handler Reg Unit := do
  match ← T.getAddrExpr m.base m.index m.disp m.scale with
  | none => return ()
  | some e => request (.addAddr e m.addr)

/-! ### Operands -/

def fixRegExpr (e : Option Expr) (r : Reg) : Build Expr :=
  match e with
  | some e => .ret e
  | none => T.getRegValueExpr r

def fixMemExpr (e : Option Expr) (addr : Addr) (size : Nat) : Build Expr :=
  match e with
  | some e => .ret e
  | none => T.getMemValueExpr addr size

/-- `fixCfExpr`. The index is the mask of the flag, not its position. -/
def fixCfExpr (e : Option Expr) (bits : Nat) : Build Expr :=
  match e with
  | some e => .ret e
  | none =>
      let cf := (T.getRegValue T.pin.regEflags).testBit Eflag.cf.mask.toNat
      T.builder.createConstant cf.toNat bits

def fixImmExpr (e : Option Expr) (imm : Addr) (bits : Nat) : Build Expr :=
  match e with
  | some e => .ret e
  | none => T.builder.createConstant imm.toNat bits

def getExprFromMemSrc (m : MemArg Reg) : Handler Reg (Option Expr) := do
  T.makeAddrConcrete m
  T.getExprFromMem m.addr m.size

/-- Two operands with a constant for the one that is not symbolic; nothing if both are
not. -/
def fixPair (dst src : Option Expr) (fixDst fixSrc : Option Expr → Build Expr) :
    Build (Option (Expr × Expr)) :=
  match dst, src with
  | none, none => return none
  | dst, src => do
      let dst ← fixDst dst
      let src ← fixSrc src
      return some (dst, src)

def getExprFromRegReg (dst src : Reg) : Handler Reg (Option (Expr × Expr)) := do
  let eDst ← T.getExprFromReg dst
  let eSrc ← T.getExprFromReg src
  fixPair eDst eSrc (T.fixRegExpr · dst) (T.fixRegExpr · src)

def getExprFromRegImm (dst : Reg) (imm : Addr) : Handler Reg (Option (Expr × Expr)) := do
  match ← T.getExprFromReg dst with
  | none => return none
  | some eDst => do
      let eSrc ← T.fixImmExpr none imm eDst.bits
      return some (eDst, eSrc)

def getExprFromRegMem (dst : Reg) (m : MemArg Reg) : Handler Reg (Option (Expr × Expr)) := do
  let eDst ← T.getExprFromReg dst
  let eSrc ← T.getExprFromMemSrc m
  fixPair eDst eSrc (T.fixRegExpr · dst) (T.fixMemExpr · m.addr m.size)

/-- `getExprFromRegMem` of memory at a known address -/
def getExprFromRegAt (dst : Reg) (addr : Addr) (size : Nat) :
    Handler Reg (Option (Expr × Expr)) := do
  let eDst ← T.getExprFromReg dst
  let eSrc ← T.getExprFromMem addr size
  fixPair eDst eSrc (T.fixRegExpr · dst) (T.fixMemExpr · addr size)

def getExprFromMemReg (m : MemArg Reg) (src : Reg) : Handler Reg (Option (Expr × Expr)) := do
  T.makeAddrConcrete m
  let eDst ← T.getExprFromMem m.addr m.size
  let eSrc ← T.getExprFromReg src
  fixPair eDst eSrc (T.fixMemExpr · m.addr m.size) (T.fixRegExpr · src)

def getExprFromMemImm (m : MemArg Reg) (imm : Addr) : Handler Reg (Option (Expr × Expr)) := do
  T.makeAddrConcrete m
  match ← T.getExprFromMem m.addr m.size with
  | none => return none
  | some eDst => do
      let eSrc ← T.fixImmExpr none imm eDst.bits
      return some (eDst, eSrc)

def getExprFromMemMem (dst src : Addr) (size : Nat) : Handler Reg (Option (Expr × Expr)) := do
  let eDst ← T.getExprFromMem dst size
  let eSrc ← T.getExprFromMem src size
  fixPair eDst eSrc (T.fixMemExpr · dst size) (T.fixMemExpr · src size)

/-- A pair of operands with a third one that was looked at before them. -/
def fixThird (pair : Option (Expr × Expr)) (third : Option Expr)
    (fixDst fixSrc fixThird : Option Expr → Build Expr) : Build (Option (Expr × Expr × Expr)) :=
  match pair, third with
  | none, none => return none
  | pair, third => do
      let dst ← fixDst (pair.map Prod.fst)
      let src ← fixSrc (pair.map Prod.snd)
      let third ← fixThird third
      return some (dst, src, third)

def getExprFromRegRegCf (dst src : Reg) : Handler Reg (Option (Expr × Expr × Expr)) := do
  let bits := T.pin.regSize dst * 8
  let cf ← T.computeCfAsExpr bits
  let pair ← T.getExprFromRegReg dst src
  fixThird pair cf (T.fixRegExpr · dst) (T.fixRegExpr · src) (T.fixCfExpr · bits)

def getExprFromRegImmCf (dst : Reg) (imm : Addr) :
    Handler Reg (Option (Expr × Expr × Expr)) := do
  let bits := T.pin.regSize dst * 8
  let cf ← T.computeCfAsExpr bits
  let pair ← T.getExprFromRegImm dst imm
  fixThird pair cf (T.fixRegExpr · dst) (T.fixImmExpr · imm bits) (T.fixCfExpr · bits)

def getExprFromRegMemCf (dst : Reg) (m : MemArg Reg) :
    Handler Reg (Option (Expr × Expr × Expr)) := do
  let bits := m.size * 8
  let cf ← T.computeCfAsExpr bits
  let pair ← T.getExprFromRegMem dst m
  fixThird pair cf (T.fixRegExpr · dst) (T.fixMemExpr · m.addr m.size) (T.fixCfExpr · bits)

def getExprFromMemRegCf (m : MemArg Reg) (src : Reg) :
    Handler Reg (Option (Expr × Expr × Expr)) := do
  let bits := m.size * 8
  let cf ← T.computeCfAsExpr bits
  let pair ← T.getExprFromMemReg m src
  fixThird pair cf (T.fixMemExpr · m.addr m.size) (T.fixRegExpr · src) (T.fixCfExpr · bits)

def getExprFromMemImmCf (m : MemArg Reg) (imm : Addr) :
    Handler Reg (Option (Expr × Expr × Expr)) := do
  let bits := m.size * 8
  let cf ← T.computeCfAsExpr bits
  let pair ← T.getExprFromMemImm m imm
  fixThird pair cf (T.fixMemExpr · m.addr m.size) (T.fixImmExpr · imm bits) (T.fixCfExpr · bits)

def getExprFromRegRegReg (dst src1 src2 : Reg) :
    Handler Reg (Option (Expr × Expr × Expr)) := do
  let eSrc2 ← T.getExprFromReg src2
  let pair ← T.getExprFromRegReg dst src1
  fixThird pair eSrc2 (T.fixRegExpr · dst) (T.fixRegExpr · src1) (T.fixRegExpr · src2)

/-- A pair of operands with an immediate of the given width. -/
def withImm (pair : Option (Expr × Expr)) (imm : Addr) (bits : Nat) :
    Build (Option (Expr × Expr × Expr)) :=
  match pair with
  | none => return none
  | some (dst, src) => do
      let eImm ← T.fixImmExpr none imm bits
      return some (dst, src, eImm)

def getExprFromRegRegImm (dst src1 : Reg) (imm : Addr) :
    Handler Reg (Option (Expr × Expr × Expr)) := do
  let pair ← T.getExprFromRegReg dst src1
  T.withImm pair imm (T.pin.regSize dst * 8)

def getExprFromMemRegImm (m : MemArg Reg) (src1 : Reg) (imm : Addr) :
    Handler Reg (Option (Expr × Expr × Expr)) := do
  let pair ← T.getExprFromMemReg m src1
  T.withImm pair imm (m.size * 8)

def getExprFromMemRegReg (m : MemArg Reg) (src1 src2 : Reg) :
    Handler Reg (Option (Expr × Expr × Expr)) := do
  let eSrc2 ← T.getExprFromReg src2
  let pair ← T.getExprFromMemReg m src1
  fixThird pair eSrc2 (T.fixMemExpr · m.addr m.size) (T.fixRegExpr · src1) (T.fixRegExpr · src2)

end Process

end Qsym
