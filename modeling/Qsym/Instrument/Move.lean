import Qsym.Instrument.Integer

/-!
# Qsym.Instrument.Move

The handlers that move bytes (moves, the stack, exchanges, string instructions,
conditional moves), those of jumps, calls and returns, and the handlers that only clear
or concretize.

A move takes the expressions of bytes as they are, so it does not go through the builder.
-/

namespace Qsym

open Procedure

namespace Handler

variable {Reg : Type}

/-- A loop over the numbers of a list. -/
def forEach (f : Nat → Handler Reg Unit) : List Nat → Handler Reg Unit
  | [] => return ()
  | i :: is => do
      f i
      forEach f is

end Handler

namespace Process

open Handler

variable {Reg : Type} [DecidableEq Reg] (T : Process Reg)

/-! ### Moves -/

def instrumentLeaRegMem (dst base index : Reg) (disp : Addr) (scale : Nat) :
    Handler Reg Unit := do
  let e ← T.getAddrExpr base index disp scale
  T.setExprToReg dst e

/-- The byte at offset `src` goes to `put`. -/
def moveByte (get : Handler Reg (Option Expr)) (put : Option Expr → Handler Reg Unit) :
    Handler Reg Unit := do
  let e ← get
  put e

def doMovRegReg (dst src : Reg) (dstFrom srcFrom size : Nat) : Handler Reg Unit :=
  forEach (fun i => moveByte (T.getExprFromRegByte src (i + srcFrom))
    fun e => T.setExprToRegByte dst e (i + dstFrom)) (List.range size)

def instrumentMovRegReg (dst src : Reg) : Handler Reg Unit :=
  T.doMovRegReg dst src 0 0 (T.pin.regSize dst)

def instrumentMovRegImm (dst : Reg) (_imm : Addr) : Handler Reg Unit :=
  T.clearExprFromReg dst

def doMovRegMem (dst : Reg) (m : MemArg Reg) (dstFrom : Nat) : Handler Reg Unit := do
  T.makeAddrConcrete m
  -- if not a dereference symbol, copy in byte level
  forEach (fun i => moveByte (getExprFromMemByte (m.addr + BitVec.ofNat 64 i))
    fun e => T.setExprToRegByte dst e (i + dstFrom)) (List.range m.size)

def instrumentMovRegMem (dst : Reg) (m : MemArg Reg) : Handler Reg Unit :=
  T.doMovRegMem dst m 0

def instrumentMovMemImm (m : MemArg Reg) (_imm : Addr) : Handler Reg Unit := do
  T.makeAddrConcrete m
  clearExprFromMem m.addr m.size

def doMovMemReg (m : MemArg Reg) (src : Reg) (srcFrom : Nat) : Handler Reg Unit := do
  T.makeAddrConcrete m
  forEach (fun i => moveByte (T.getExprFromRegByte src (i + srcFrom))
    fun e => setExprToMemByte (m.addr + BitVec.ofNat 64 i) e) (List.range m.size)

def instrumentMovMemReg (m : MemArg Reg) (src : Reg) : Handler Reg Unit :=
  T.doMovMemReg m src 0

def instrumentMovhRegMem (dst : Reg) (m : MemArg Reg) : Handler Reg Unit :=
  if T.pin.regSize dst = 16 then T.doMovRegMem dst m 8 else Stateful.stop

def instrumentMovhMemReg (m : MemArg Reg) (src : Reg) : Handler Reg Unit :=
  if T.pin.regSize src = 16 then T.doMovMemReg m src 8 else Stateful.stop

def instrumentMovlzRegReg (dst src : Reg) (width : Nat) : Handler Reg Unit := do
  let size := T.pin.regSize src
  T.doMovRegReg dst src 0 0 width
  T.clearExprFromRegPart dst size (some (T.pin.regSize dst - size))

def instrumentMovlzRegMem (dst : Reg) (m : MemArg Reg) (_width : Nat) : Handler Reg Unit := do
  T.doMovRegMem dst m 0
  if m.size ≤ T.pin.regSize dst then
    T.clearExprFromRegPart dst m.size (some (T.pin.regSize dst - m.size))
  else Stateful.stop

def instrumentMovlzMemReg (m : MemArg Reg) (src : Reg) (_width : Nat) : Handler Reg Unit :=
  T.doMovMemReg m src 0

/-- A move with extension. -/
def instrumentMovx (operand : Handler Reg (Option Expr)) (kind : ExtKind) (dst : Reg) :
    Handler Reg Unit :=
  computing operand (T.setExprToReg dst none) fun e => do
    let e ← T.builder.create (.ext kind e (T.pin.regSize dst * 8))
    T.setExprToReg dst (some e)

def instrumentMovsxRegMem (dst : Reg) (m : MemArg Reg) : Handler Reg Unit :=
  T.instrumentMovx (T.getExprFromMemSrc m) .sext dst

def instrumentMovsxRegReg (dst src : Reg) : Handler Reg Unit :=
  T.instrumentMovx (T.getExprFromReg src) .sext dst

def instrumentMovzxRegMem (dst : Reg) (m : MemArg Reg) : Handler Reg Unit :=
  T.instrumentMovx (T.getExprFromMemSrc m) .zext dst

def instrumentMovzxRegReg (dst src : Reg) : Handler Reg Unit :=
  T.instrumentMovx (T.getExprFromReg src) .zext dst

def instrumentVmovlRegRegMem (dst src : Reg) (m : MemArg Reg) : Handler Reg Unit :=
  if T.pin.regSize dst = 16 then do
    T.doMovRegReg dst src 8 8 8
    T.doMovRegMem dst m 0
  else Stateful.stop

/-! ### Exchanges -/

def instrumentXchgRegReg (dst src : Reg) : Handler Reg Unit := do
  let eSrc ← T.getExprFromReg src
  let eDst ← T.getExprFromReg dst
  T.setExprToReg dst eSrc
  T.setExprToReg src eDst

def instrumentXchgRegMem (dst : Reg) (m : MemArg Reg) : Handler Reg Unit := do
  let eSrc ← T.getExprFromMem m.addr m.size
  let eDst ← T.getExprFromReg dst
  T.setExprToMem m.addr m.size eDst
  T.setExprToReg dst eSrc

def instrumentXchgMemReg (m : MemArg Reg) (src : Reg) : Handler Reg Unit := do
  let eDst ← T.getExprFromMem m.addr m.size
  let eSrc ← T.getExprFromReg src
  T.setExprToReg src eDst
  T.setExprToMem m.addr m.size eSrc

/-! ### The stack -/

def instrumentPushReg (dstAddr : Addr) (dstSize : Nat) (src : Reg) : Handler Reg Unit := do
  -- keep stack non-symbolic
  T.concretizeReg T.pin.regStackPtr
  forEach (fun i => moveByte (T.getExprFromRegByte src i)
    fun e => setExprToMemByte (dstAddr + BitVec.ofNat 64 i) e) (List.range dstSize)

def instrumentPushImm (dstAddr : Addr) (dstSize : Nat) : Handler Reg Unit := do
  -- keep stack non-symbolic
  T.concretizeReg T.pin.regStackPtr
  clearExprFromMem dstAddr dstSize

def instrumentPushMem (dstAddr : Addr) (m : MemArg Reg) : Handler Reg Unit := do
  -- keep stack non-symbolic
  T.concretizeReg T.pin.regStackPtr
  T.makeAddrConcrete m
  forEach (fun i => moveByte (getExprFromMemByte (m.addr + BitVec.ofNat 64 i))
    fun e => setExprToMemByte (dstAddr + BitVec.ofNat 64 i) e) (List.range m.size)

def instrumentPopReg (dst : Reg) (srcAddr : Addr) (srcSize : Nat) : Handler Reg Unit := do
  -- keep stack non-symbolic
  T.concretizeReg T.pin.regStackPtr
  forEach (fun i => moveByte (getExprFromMemByte (srcAddr + BitVec.ofNat 64 i))
    fun e => T.setExprToRegByte dst e i) (List.range srcSize)

def instrumentPopMem (m : MemArg Reg) (srcAddr : Addr) : Handler Reg Unit := do
  -- keep stack non-symbolic
  T.concretizeReg T.pin.regStackPtr
  T.makeAddrConcrete m
  forEach (fun i => moveByte (getExprFromMemByte (srcAddr + BitVec.ofNat 64 i))
    fun e => setExprToMemByte (m.addr + BitVec.ofNat 64 i) e) (List.range m.size)

/-! ### String instructions -/

/-- A comparison whose operands are subtracted for the flags. -/
def compareOperands (operands : Handler Reg (Option (Expr × Expr))) : Handler Reg Unit :=
  computing operands (invalidateEflags .sub) fun (dst, src) => do
    let res ← T.builder.createSub dst src
    setEflags .sub res (some dst) (some src)

def instrumentCmps (dstAddr srcAddr : Addr) (size : Nat) : Handler Reg Unit := do
  -- TODO: add symbolic access
  T.concretizeReg T.pin.regGsi
  T.concretizeReg T.pin.regGdi
  T.compareOperands (T.getExprFromMemMem dstAddr srcAddr size)

def instrumentMovs (srcAddr dstAddr : Addr) (size : Nat) : Handler Reg Unit := do
  -- TODO: Add symbolic access in Movs*
  T.concretizeReg T.pin.regGsi
  T.concretizeReg T.pin.regGdi
  forEach (fun i => moveByte (getExprFromMemByte (srcAddr + BitVec.ofNat 64 i))
    fun e => setExprToMemByte (dstAddr + BitVec.ofNat 64 i) e) (List.range size)

def instrumentScas (addr : Addr) (size : Nat) : Handler Reg Unit := do
  -- TODO: add symbolic access
  T.concretizeReg T.pin.regGdi
  T.compareOperands (T.getExprFromRegAt (T.pin.getAx size) addr size)

def instrumentStos (dstAddr : Addr) (src : Reg) : Handler Reg Unit := do
  T.concretizeReg T.pin.regGdi
  forEach (fun i => moveByte (T.getExprFromRegByte src i)
    fun e => setExprToMemByte (dstAddr + BitVec.ofNat 64 i) e)
    (List.range (T.pin.regSize src))

/-! ### Jumps, calls and returns -/

def instrumentBBL : Handler Reg Unit :=
  request (.visitBasicBlock (T.getRegValue T.pin.regInstPtr))

def instrumentJcc (taken : Bool) (_target : Addr) (jcc : JccKind) (inv : Bool) :
    Handler Reg Unit := do
  match ← T.computeJcc jcc inv with
  | some e => request (.addJcc e taken (T.getRegValue T.pin.regInstPtr))
  | none => return ()

def instrumentJmpReg (r : Reg) : Handler Reg Unit := do
  match ← T.getExprFromReg r with
  | some e => do
      request (.solveAll (.reg r) e (T.getRegValue r))
      T.clearExprFromReg r
  | none => return ()

def instrumentJmpMem (m : MemArg Reg) : Handler Reg Unit := do
  match ← T.getExprFromMem m.addr m.size with
  | some e => do
      request (.solveAll (.mem m.addr m.size) e (T.getMemValue m.addr m.size))
      clearExprFromMem m.addr m.size
  | none => return ()

def instrumentCall (addr : Addr) (size : Nat) : Handler Reg Unit := do
  -- TODO: need to handle symbolic call
  T.concretizeReg T.pin.regStackPtr
  -- Clear by return address
  clearExprFromMem addr size

def instrumentCallAfter (retAddr : Addr) : Handler Reg Unit :=
  request (.visitCall retAddr)

def instrumentRet (branchAddr : Addr) : Handler Reg Unit :=
  request (.visitRet branchAddr)

/-! ### Conditional moves and compare-and-exchange -/

def instrumentCmovRegReg (taken : Bool) (dst src : Reg) (jcc : JccKind) (inv : Bool) :
    Handler Reg Unit := do
  -- call instrumentJcc to trigger solver
  T.instrumentJcc taken 0 jcc inv
  if taken then T.instrumentMovRegReg dst src

def instrumentCmovRegMem (taken : Bool) (dst : Reg) (m : MemArg Reg) (jcc : JccKind)
    (inv : Bool) : Handler Reg Unit := do
  -- call instrumentJcc to trigger solver
  T.instrumentJcc taken 0 jcc inv
  if taken then T.instrumentMovRegMem dst m

/-- What the two forms do if none of the three operands is symbolic, and otherwise. -/
def cmpxchg (eDst eSrc eAx : Option Expr) (compare onEqual onDistinct : Handler Reg Unit)
    (valAx valDst : Nat) : Handler Reg Unit :=
  match eDst, eSrc, eAx with
  | none, none, none => invalidateEflags .sub
  | _, _, _ => do
      -- mimic cmp
      compare
      -- solve
      T.instrumentJcc true 0 .z (valAx != valDst)
      if valAx = valDst then onEqual else onDistinct

def instrumentCmpxchgRegReg (dst src : Reg) : Handler Reg Unit := do
  let ax := T.pin.getAx (T.pin.regSize src)
  let eDst ← T.getExprFromReg dst
  let eSrc ← T.getExprFromReg src
  let eAx ← T.getExprFromReg ax
  T.cmpxchg eDst eSrc eAx (T.instrumentBinaryRegReg dst ax .sub false)
    (T.instrumentMovRegReg dst src) (T.instrumentMovRegReg ax dst)
    (T.getRegValue ax) (T.getRegValue dst)

def instrumentCmpxchgMemReg (m : MemArg Reg) (src : Reg) : Handler Reg Unit := do
  let ax := T.pin.getAx (T.pin.regSize src)
  let eDst ← T.getExprFromMem m.addr m.size
  let eSrc ← T.getExprFromReg src
  let eAx ← T.getExprFromReg ax
  T.cmpxchg eDst eSrc eAx (T.instrumentBinaryRegMem ax m .sub false)
    (T.instrumentMovMemReg m src) (T.instrumentMovRegMem ax m)
    (T.getRegValue ax) (T.getMemValue m.addr m.size)

/-! ### Registers that take values of no expression -/

/-- The shadow side of `instrumentCpuid`. -/
def instrumentCpuid : Handler Reg Unit := do
  T.clearExprFromReg T.pin.regEax
  T.clearExprFromReg T.pin.regEbx
  T.clearExprFromReg T.pin.regEcx
  T.clearExprFromReg T.pin.regEdx

def instrumentRdtsc : Handler Reg Unit := do
  T.clearExprFromReg T.pin.regEax
  T.clearExprFromReg T.pin.regEdx

def instrumentRdtscp : Handler Reg Unit := do
  T.clearExprFromReg T.pin.regEax
  T.clearExprFromReg T.pin.regEdx
  T.clearExprFromReg T.pin.regEcx

def instrumentClrReg (r : Reg) : Handler Reg Unit :=
  T.clearExprFromReg r

def instrumentClrMem (addr : Addr) (size : Nat) : Handler Reg Unit :=
  clearExprFromMem addr size

/-! ### The default -/

def instrumentConcretizeReg (r : Reg) : Handler Reg Unit :=
  T.concretizeReg r

def instrumentConcretizeMem (addr : Addr) (size : Nat) : Handler Reg Unit :=
  T.concretizeMem addr size

/-- `instrumentConcretizeEflags`. It may lose correctness, as the source notes. -/
def instrumentConcretizeEflags : Handler Reg Unit :=
  invalidateEflags .add

end Process

end Qsym
