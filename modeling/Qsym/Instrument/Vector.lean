import Qsym.Instrument.Move

/-!
# Qsym.Instrument.Vector

The handlers of the vector instructions. Most of them build the result lane by lane, from
the lowest lane up, and put the lanes together (`ExprBuilder.lanes`). The two-operand forms
read their destination; the three-operand forms clear it when the sources are concrete.
-/

namespace Qsym

open Procedure

namespace ExprBuilder

variable (b : ExprBuilder)

/-- The loop that pushes the lanes at the given positions to the front. -/
def pushLanes (lane : Nat → Build Expr) : List Nat → List Expr → Build (List Expr)
  | [], exprs => .ret exprs
  | i :: is, exprs => do
      let e ← lane i
      pushLanes lane is (e :: exprs)

/-- The positions of `for (i = 0; i < n; i += step)`. -/
def steps (n step : Nat) : List Nat :=
  (List.range ((n + step - 1) / step)).map (· * step)

/-- The concatenation of lanes of `step` bits or bytes out of `n`. -/
def lanes (n step : Nat) (lane : Nat → Build Expr) : Build Expr := do
  let exprs ← pushLanes lane (steps n step) []
  b.createConcatAll exprs

/-- Lanes that combine those of the two operands, `width` bits each. -/
def pairLanes (bits width : Nat) (dst src : Expr) (f : Expr → Expr → Build Expr) :
    Build Expr :=
  b.lanes bits width fun i => do
    let subDst ← b.createExtract dst i width
    let subSrc ← b.createExtract src i width
    f subDst subSrc

/-- `saturateIntToInt` and `saturateIntToUint`: the ends of the range in both widths, and
the comparisons with them. -/
def saturate (e : Expr) (src dst : Nat) (minSrc maxSrc : BitVec src) (minDst maxDst : BitVec dst)
    (lt gt : CompareKind) : Build Expr := do
  let eMaxSrc ← b.create (.constant src maxSrc)
  let eMinSrc ← b.create (.constant src minSrc)
  let eMaxDst ← b.create (.constant dst maxDst)
  let eMinDst ← b.create (.constant dst minDst)
  let isLess ← b.create (.compare lt e eMinSrc)
  let isGreater ← b.create (.compare gt e eMaxSrc)
  let low ← b.createExtract e 0 dst
  let res ← b.createIte isGreater eMaxDst low
  b.createIte isLess eMinDst res

def saturateIntToInt (e : Expr) (src dst : Nat) : Build Expr :=
  if dst ≤ src ∧ e.bits = src then
    b.saturate e src dst ((BitVec.intMin dst).signExtend src) ((BitVec.intMax dst).signExtend src)
      (BitVec.intMin dst) (BitVec.intMax dst) .slt .sgt
  else .stop

def saturateIntToUint (e : Expr) (src dst : Nat) : Build Expr :=
  if dst ≤ src ∧ e.bits = src then
    b.saturate e src dst 0 ((BitVec.allOnes dst).setWidth src) 0 (BitVec.allOnes dst) .ult .ugt
  else .stop

/-- The result of `doPack` for a destination of `bits` bits. -/
def packExpr (bits : Nat) (dst src : Expr) (width : Nat) (sign : Bool) : Build Expr := do
  let width := width * 8
  let concat ← b.createConcat src dst
  b.lanes bits width fun i => do
    let sub ← b.createExtract concat (i * 2) (width * 2)
    if sign then b.saturateIntToInt sub (width * 2) width
    else b.saturateIntToUint sub (width * 2) width

/-- The result of `instrumentPalignrReg` and `instrumentPalignrMem`. -/
def palignrExpr (dst src : Expr) (off bits : Nat) : Build Expr := do
  let e ← b.createConcat dst src
  b.createExtract e (off * 8) bits

/-- The result of `doParith`. -/
def parithExpr (bits : Nat) (dst src : Expr) (kind : BinaryKind) (width : Nat) : Build Expr :=
  b.pairLanes bits (width * 8) dst src fun subDst subSrc => b.createBinaryExpr kind subDst subSrc

/-- The result of `doPcmp`. -/
def pcmpExpr (bits : Nat) (dst src : Expr) (kind : CompareKind) (width : Nat) : Build Expr := do
  let width := width * 8
  let success ← b.create (.constant width (BitVec.allOnes width))
  let fail ← b.createConstant 0 width
  b.pairLanes bits width dst src fun subDst subSrc => do
    let cond ← b.create (.compare kind subDst subSrc)
    b.createIte cond success fail

/-- `doPextr`. The multiplication binds tighter than the mask. -/
def doPextr (src : Expr) (imm : Addr) (bits width : Nat) : Build Expr := do
  let width := width * 8
  let imm := imm.toNat &&& ((bits / width - 1) * width)
  let count ← b.createConstant imm bits
  let e ← b.createAShr src count
  let e ← b.createExtract e 0 width
  b.createZExt e bits

/-- The products of `doPmaddwd`, and of the lanes of 16 bits at byte `i`. -/
def wordProduct (dst src : Expr) (i : Nat) : Build Expr := do
  let subDst ← b.createExtract dst (i * 8) (2 * 8)
  let subSrc ← b.createExtract src (i * 8) (2 * 8)
  let subDst ← b.createZExt subDst (4 * 8)
  let subSrc ← b.createZExt subSrc (4 * 8)
  b.createMul subDst subSrc

/-- The first loop of `doPmaddwd`. -/
def wordProducts (dst src : Expr) : List Nat → Build (List Expr)
  | [] => return []
  | i :: is => do
      let e ← b.wordProduct dst src i
      let es ← wordProducts dst src is
      return e :: es

/-- The second loop of `doPmaddwd`: neighbouring products are added. -/
def addPairs : List Expr → List Expr → Build (List Expr)
  | mul1 :: mul2 :: muls, exprs => do
      let e ← b.createAdd mul1 mul2
      addPairs muls (e :: exprs)
  | [], exprs => return exprs
  | [_], _ => .stop

/-- The result of `doPmaddwd` for a destination of `size` bytes. -/
def pmaddwdExpr (size : Nat) (dst src : Expr) : Build Expr := do
  let muls ← b.wordProducts dst src (steps size 2)
  let exprs ← b.addPairs muls []
  b.createConcatAll exprs

/-- The result of `doPcmpxchg`. -/
def pcmpxchgExpr (bits : Nat) (dst src : Expr) (kind : CompareKind) (width : Nat) :
    Build Expr :=
  b.pairLanes bits (width * 8) dst src fun subDst subSrc => do
    let cond ← b.create (.compare kind subDst subSrc)
    b.createIte cond subDst subSrc

/-- The result of `doPmul`. -/
def pmulExpr (bits : Nat) (dst src : Expr) (width : Nat) : Build Expr :=
  b.pairLanes bits (width * 8) dst src fun subDst subSrc => b.createMul subDst subSrc

/-- The result of `doPmulhw` for a destination of `size` bytes. -/
def pmulhwExpr (size : Nat) (dst src : Expr) (sign : Bool) : Build Expr :=
  b.lanes size 2 fun i => do
    let subDst ← b.createExtract dst (i * 8) (2 * 8)
    let subSrc ← b.createExtract src (i * 8) (2 * 8)
    let subDst ← b.extendToDouble subDst sign
    let subSrc ← b.extendToDouble subSrc sign
    let e ← b.createMul subDst subSrc
    b.createExtract e (2 * 8) (2 * 8)

/-- The result of `instrumentPmovmskb`. -/
def pmovmskbExpr (src : Expr) (size bits : Nat) : Build Expr := do
  let e ← b.lanes size 1 fun i => b.createExtract src (7 + i * 8) 1
  b.createZExt e bits

/-- The result of `doPshuf`. -/
def pshufExpr (src : Expr) (imm : Addr) (size width : Nat) : Build Expr :=
  b.lanes (size / width) 1 fun i => do
    let sel := (imm.toNat >>> (2 * i)) &&& 3
    let count ← b.createConstant (sel * width * 8 + size / 128 * 128) src.bits
    let e ← b.createLShr src count
    b.createExtract e 0 32

/-- The lane of `doPshufb` at byte `i`. -/
def pshufbLane (dst src zeroByte oneBit three mask : Expr) (bits i : Nat) : Build Expr := do
  let msb ← b.createExtract src (i * 8 + 7) 1
  let index ← b.createExtract src (i * 8) 8
  let index ← b.createAnd index mask
  let index ← b.createZExt index bits
  let index ← b.createShl index three
  -- for vpshufb
  let index ← if 16 ≤ i then do
      let lane ← b.createConstant 128 bits
      b.createAdd index lane
    else .ret index
  let e ← b.createLShr dst index
  let e ← b.createExtract e 0 8
  let isSet ← b.createEqual msb oneBit
  b.createIte isSet zeroByte e

/-- The result of `doPshufb` for a destination of `size` bytes. -/
def pshufbExpr (size : Nat) (dst src : Expr) : Build Expr := do
  let oneBit ← b.createConstant 1 1
  let zeroByte ← b.createConstant 0 8
  let three ← b.createConstant 3 (size * 8)
  let mask ← b.createConstant (if size = 8 then 7 else 15) 8
  b.lanes size 1 (b.pshufbLane dst src zeroByte oneBit three mask (size * 8))

/-- The result of `doPshift` for a destination of `size` bytes. -/
def pshiftExpr (size : Nat) (kind : BinaryKind) (dst : Expr) (imm width : Nat) :
    Build Expr := do
  -- for pslldq & psrldq
  let imm := if width = 16 then imm * 8 % 2 ^ 64 else imm
  let count ← b.createConstant imm (width * 8)
  b.lanes size width fun i => do
    let sub ← b.createExtract dst (i * 8) (width * 8)
    b.createBinaryExpr kind sub count

/-- The loop of `doPunpckh` and `doPunpckl`: lanes of the two operands in turn. -/
def interleave (dst src : Expr) (width off : Nat) : List Nat → List Expr → Build (List Expr)
  | [], exprs => return exprs
  | i :: is, exprs => do
      let d ← b.createExtract dst ((i / 2 + off) * 8) (width * 8)
      let s ← b.createExtract src ((i / 2 + off) * 8) (width * 8)
      interleave dst src width off is (s :: d :: exprs)

/-- The result of `doPunpckh`, with the upper half as offset, and of `doPunpckl`. -/
def punpckExpr (dst src : Expr) (width size off : Nat) : Build Expr := do
  let exprs ← b.interleave dst src width off (steps size (width * 2)) []
  b.createConcatAll exprs

/-- `doVinsert128i` -/
def doVinsert128i (src1 src2 : Expr) (imm : Addr) : Build Expr :=
  if src1.bits = 256 ∧ src2.bits = 128 then
    if imm &&& 1 = 0 then do
      let high ← b.createExtract src1 128 128
      b.createConcat high src2
    else do
      let low ← b.createExtract src1 0 128
      b.createConcat src2 low
  else .stop

/-- The four words of `doPshufw` in the lane from bit `beg` on. -/
def pshufwWords (src : Expr) (imm : Addr) (bits beg : Nat) (high : Bool) :
    List Nat → List Expr → Build (List Expr)
  | [], exprs => return exprs
  | i :: is, exprs => do
      let sel := (imm.toNat >>> i) &&& 3
      let count ← b.createConstant (sel * 16 + beg) bits
      let e ← b.createLShr src count
      let e ← b.createExtract e (high.toNat * 64) 16
      pshufwWords src imm bits beg high is (e :: exprs)

/-- The half of a lane that `doPshufw` keeps, if it is this one. -/
def pushHalf (src : Expr) (beg : Nat) (keep : Bool) (exprs : List Expr) : Build (List Expr) :=
  if keep then do
    let e ← b.createExtract src beg 64
    return e :: exprs
  else return exprs

/-- The outer loop of `doPshufw`: every lane of 128 bits keeps one half. -/
def pshufwLanes (src : Expr) (imm : Addr) (bits : Nat) (high : Bool) :
    List Nat → List Expr → Build (List Expr)
  | [], exprs => return exprs
  | j :: js, exprs => do
      let beg := j * 16 * 8
      let exprs ← b.pushHalf src beg high exprs
      let exprs ← b.pshufwWords src imm bits beg high [0, 2, 4, 6] exprs
      let exprs ← b.pushHalf src (beg + 64) (!high) exprs
      pshufwLanes src imm bits high js exprs

/-- The result of `doPshufw` for a destination of `size` bytes. -/
def pshufwExpr (size : Nat) (src : Expr) (imm : Addr) (high : Bool) : Build Expr :=
  if size = 16 ∨ size = 32 then do
    let exprs ← b.pshufwLanes src imm (size * 8) high (List.range (size / 16)) []
    b.createConcatAll exprs
  else .stop

end ExprBuilder

namespace Process

open Handler

variable {Reg : Type} [DecidableEq Reg] (T : Process Reg)

/-! ### Shapes -/

/-- An instruction that reads its destination. -/
def legacy {α : Type} (operands : Handler Reg (Option α)) (dst : Reg) (result : α → Build Expr) :
    Handler Reg Unit :=
  computing operands (return ()) fun x => do
    let res ← result x
    T.setExprToReg dst (some res)

/-- An instruction that only writes its destination. -/
def vex {α : Type} (operands : Handler Reg (Option α)) (dst : Reg) (result : α → Build Expr) :
    Handler Reg Unit :=
  computing operands (T.clearExprFromReg dst) fun x => do
    let res ← result x
    T.setExprToReg dst (some res)

/-! ### Pack and align -/

def doPack (dst : Reg) (width : Nat) (sign : Bool) (x : Expr × Expr) : Build Expr :=
  T.builder.packExpr (T.pin.regSize dst * 8) x.1 x.2 width sign

def instrumentPackRegReg (dst src : Reg) (width : Nat) (sign : Bool) : Handler Reg Unit :=
  T.legacy (T.getExprFromRegReg dst src) dst (T.doPack dst width sign)

def instrumentPackRegMem (dst : Reg) (m : MemArg Reg) (width : Nat) (sign : Bool) :
    Handler Reg Unit :=
  T.legacy (T.getExprFromRegMem dst m) dst (T.doPack dst width sign)

def instrumentVpackRegRegReg (dst src1 src2 : Reg) (width : Nat) (sign : Bool) :
    Handler Reg Unit :=
  T.vex (T.getExprFromRegReg src1 src2) dst (T.doPack dst width sign)

def instrumentVpackRegRegMem (dst src1 : Reg) (m : MemArg Reg) (width : Nat) (sign : Bool) :
    Handler Reg Unit :=
  T.vex (T.getExprFromRegMem src1 m) dst (T.doPack dst width sign)

/-- `instrumentPalignrReg`. The source is fixed first. -/
def instrumentPalignrReg (dst src : Reg) (off : Addr) : Handler Reg Unit := do
  let eDst ← T.getExprFromReg dst
  let eSrc ← T.getExprFromReg src
  T.legacy (fixPair eSrc eDst (T.fixRegExpr · src) (T.fixRegExpr · dst)) dst fun x =>
    T.builder.palignrExpr x.2 x.1 off.toNat (T.pin.regSize dst * 8)

def instrumentPalignrMem (dst : Reg) (m : MemArg Reg) (off : Addr) : Handler Reg Unit :=
  T.legacy (T.getExprFromMemReg m dst) dst fun x =>
    T.builder.palignrExpr x.2 x.1 off.toNat (m.size * 8)

/-! ### Lane by lane -/

def doParith (dst : Reg) (kind : BinaryKind) (width : Nat) (x : Expr × Expr) : Build Expr :=
  T.builder.parithExpr (T.pin.regSize dst * 8) x.1 x.2 kind width

def instrumentParithRegReg (dst src : Reg) (kind : BinaryKind) (width : Nat) :
    Handler Reg Unit :=
  T.legacy (T.getExprFromRegReg dst src) dst (T.doParith dst kind width)

def instrumentParithRegMem (dst : Reg) (m : MemArg Reg) (kind : BinaryKind) (width : Nat) :
    Handler Reg Unit :=
  T.legacy (T.getExprFromRegMem dst m) dst (T.doParith dst kind width)

def instrumentVparithRegRegReg (dst src1 src2 : Reg) (kind : BinaryKind) (width : Nat) :
    Handler Reg Unit :=
  T.vex (T.getExprFromRegReg src1 src2) dst (T.doParith dst kind width)

def instrumentVparithRegRegMem (dst src1 : Reg) (m : MemArg Reg) (kind : BinaryKind)
    (width : Nat) : Handler Reg Unit :=
  T.vex (T.getExprFromRegMem src1 m) dst (T.doParith dst kind width)

def doPcmp (dst : Reg) (kind : CompareKind) (width : Nat) (x : Expr × Expr) : Build Expr :=
  T.builder.pcmpExpr (T.pin.regSize dst * 8) x.1 x.2 kind width

def instrumentPcmpRegReg (dst src : Reg) (kind : CompareKind) (width : Nat) :
    Handler Reg Unit :=
  T.legacy (T.getExprFromRegReg dst src) dst (T.doPcmp dst kind width)

def instrumentPcmpRegMem (dst : Reg) (m : MemArg Reg) (kind : CompareKind) (width : Nat) :
    Handler Reg Unit :=
  T.legacy (T.getExprFromRegMem dst m) dst (T.doPcmp dst kind width)

def instrumentVpcmpRegRegReg (dst src1 src2 : Reg) (kind : CompareKind) (width : Nat) :
    Handler Reg Unit :=
  T.vex (T.getExprFromRegReg src1 src2) dst (T.doPcmp dst kind width)

def instrumentVpcmpRegRegMem (dst src1 : Reg) (m : MemArg Reg) (kind : CompareKind)
    (width : Nat) : Handler Reg Unit :=
  T.vex (T.getExprFromRegMem src1 m) dst (T.doPcmp dst kind width)

def doPmaddwd (dst : Reg) (x : Expr × Expr) : Build Expr :=
  T.builder.pmaddwdExpr (T.pin.regSize dst) x.1 x.2

def instrumentPmaddwdRegReg (dst src : Reg) : Handler Reg Unit :=
  T.legacy (T.getExprFromRegReg dst src) dst (T.doPmaddwd dst)

def instrumentPmaddwdRegMem (dst : Reg) (m : MemArg Reg) : Handler Reg Unit :=
  T.legacy (T.getExprFromRegMem dst m) dst (T.doPmaddwd dst)

def instrumentVpmaddwdRegRegReg (dst src1 src2 : Reg) : Handler Reg Unit :=
  T.vex (T.getExprFromRegReg src1 src2) dst (T.doPmaddwd dst)

def instrumentVpmaddwdRegRegMem (dst src1 : Reg) (m : MemArg Reg) : Handler Reg Unit :=
  T.vex (T.getExprFromRegMem src1 m) dst (T.doPmaddwd dst)

def doPcmpxchg (dst : Reg) (kind : CompareKind) (width : Nat) (x : Expr × Expr) : Build Expr :=
  T.builder.pcmpxchgExpr (T.pin.regSize dst * 8) x.1 x.2 kind width

def instrumentPcmpxchgRegReg (dst src : Reg) (kind : CompareKind) (width : Nat) :
    Handler Reg Unit :=
  T.legacy (T.getExprFromRegReg dst src) dst (T.doPcmpxchg dst kind width)

def instrumentPcmpxchgRegMem (dst : Reg) (m : MemArg Reg) (kind : CompareKind) (width : Nat) :
    Handler Reg Unit :=
  T.legacy (T.getExprFromRegMem dst m) dst (T.doPcmpxchg dst kind width)

def instrumentVpcmpxchgRegRegReg (dst src1 src2 : Reg) (kind : CompareKind) (width : Nat) :
    Handler Reg Unit :=
  T.vex (T.getExprFromRegReg src1 src2) dst (T.doPcmpxchg dst kind width)

def instrumentVpcmpxchgRegRegMem (dst src1 : Reg) (m : MemArg Reg) (kind : CompareKind)
    (width : Nat) : Handler Reg Unit :=
  T.vex (T.getExprFromRegMem src1 m) dst (T.doPcmpxchg dst kind width)

def doPmul (dst : Reg) (width : Nat) (x : Expr × Expr) : Build Expr :=
  T.builder.pmulExpr (T.pin.regSize dst * 8) x.1 x.2 width

def instrumentPmulRegReg (dst src : Reg) (width : Nat) : Handler Reg Unit :=
  T.legacy (T.getExprFromRegReg dst src) dst (T.doPmul dst width)

def instrumentPmulRegMem (dst : Reg) (m : MemArg Reg) (width : Nat) : Handler Reg Unit :=
  T.legacy (T.getExprFromRegMem dst m) dst (T.doPmul dst width)

def instrumentVpmulRegRegReg (dst src1 src2 : Reg) (width : Nat) : Handler Reg Unit :=
  T.vex (T.getExprFromRegReg src1 src2) dst (T.doPmul dst width)

def instrumentVpmulRegRegMem (dst src1 : Reg) (m : MemArg Reg) (width : Nat) :
    Handler Reg Unit :=
  T.vex (T.getExprFromRegMem src1 m) dst (T.doPmul dst width)

def doPmulhw (dst : Reg) (sign : Bool) (x : Expr × Expr) : Build Expr :=
  T.builder.pmulhwExpr (T.pin.regSize dst) x.1 x.2 sign

def instrumentPmulhwRegReg (dst src : Reg) (sign : Bool) : Handler Reg Unit :=
  T.legacy (T.getExprFromRegReg dst src) dst (T.doPmulhw dst sign)

def instrumentPmulhwRegMem (dst : Reg) (m : MemArg Reg) (sign : Bool) : Handler Reg Unit :=
  T.legacy (T.getExprFromRegMem dst m) dst (T.doPmulhw dst sign)

def instrumentVpmulhwRegRegReg (dst src1 src2 : Reg) (sign : Bool) : Handler Reg Unit :=
  T.vex (T.getExprFromRegReg src1 src2) dst (T.doPmulhw dst sign)

def instrumentVpmulhwRegRegMem (dst src1 : Reg) (m : MemArg Reg) (sign : Bool) :
    Handler Reg Unit :=
  T.vex (T.getExprFromRegMem src1 m) dst (T.doPmulhw dst sign)

def instrumentTernaryRegRegReg (dst src1 src2 : Reg) (kind : BinaryKind) : Handler Reg Unit :=
  T.vex (T.getExprFromRegReg src1 src2) dst fun x => T.builder.createBinaryExpr kind x.1 x.2

def instrumentTernaryRegRegMem (dst src1 : Reg) (m : MemArg Reg) (kind : BinaryKind) :
    Handler Reg Unit :=
  T.vex (T.getExprFromRegMem src1 m) dst fun x => T.builder.createBinaryExpr kind x.1 x.2

/-! ### Extraction and insertion -/

def instrumentPextrRegRegImm (dst src : Reg) (imm : Addr) (width : Nat) : Handler Reg Unit :=
  T.vex (T.getExprFromReg src) dst fun eSrc =>
    T.builder.doPextr eSrc imm (T.pin.regSize dst * 8) width

def instrumentPextrMemRegImm (m : MemArg Reg) (src : Reg) (imm : Addr) (width : Nat) :
    Handler Reg Unit := do
  T.makeAddrConcrete m
  computing (T.getExprFromReg src) (clearExprFromMem m.addr m.size) fun eSrc => do
    let res ← T.builder.doPextr eSrc imm (m.size * 8) width
    T.setExprToMem m.addr m.size (some res)

def instrumentPmovmskb (dst src : Reg) : Handler Reg Unit :=
  T.vex (T.getExprFromReg src) dst fun eSrc =>
    T.builder.pmovmskbExpr eSrc (T.pin.regSize src) (T.pin.regSize dst * 8)

def instrumentVinsert128iRegRegRegImm (dst src1 src2 : Reg) (imm : Addr) : Handler Reg Unit :=
  T.vex (T.getExprFromRegReg src1 src2) dst fun x => T.builder.doVinsert128i x.1 x.2 imm

def instrumentVinsert128iRegRegMemImm (dst src1 : Reg) (m : MemArg Reg) (imm : Addr) :
    Handler Reg Unit :=
  T.vex (T.getExprFromRegMem src1 m) dst fun x => T.builder.doVinsert128i x.1 x.2 imm

/-! ### Shuffles -/

def instrumentPshufRegRegImm (dst src : Reg) (imm : Addr) (width : Nat) : Handler Reg Unit :=
  T.vex (T.getExprFromReg src) dst fun eSrc =>
    T.builder.pshufExpr eSrc imm (T.pin.regSize dst) width

def instrumentPshufRegMemImm (dst : Reg) (m : MemArg Reg) (imm : Addr) (width : Nat) :
    Handler Reg Unit :=
  T.vex (T.getExprFromMemSrc m) dst fun eSrc => T.builder.pshufExpr eSrc imm m.size width

def doPshufb (dst : Reg) (x : Expr × Expr) : Build Expr :=
  T.builder.pshufbExpr (T.pin.regSize dst) x.1 x.2

def instrumentPshufbRegReg (dst src : Reg) : Handler Reg Unit := do
  -- TODO: add non-linear operation
  T.concretizeReg src
  T.legacy (T.getExprFromRegReg dst src) dst (T.doPshufb dst)

def instrumentPshufbRegMem (dst : Reg) (m : MemArg Reg) : Handler Reg Unit := do
  -- TODO: add non-linear operation
  T.concretizeMem m.addr m.size
  T.legacy (T.getExprFromRegMem dst m) dst (T.doPshufb dst)

def instrumentVpshufbRegRegReg (dst src1 src2 : Reg) : Handler Reg Unit :=
  T.vex (T.getExprFromRegReg src1 src2) dst (T.doPshufb dst)

def instrumentVpshufbRegRegMem (dst src1 : Reg) (m : MemArg Reg) : Handler Reg Unit :=
  T.vex (T.getExprFromRegMem src1 m) dst (T.doPshufb dst)

def doPshufw (dst : Reg) (imm : Addr) (high : Bool) (eSrc : Expr) : Build Expr :=
  T.builder.pshufwExpr (T.pin.regSize dst) eSrc imm high

def instrumentPshufwRegRegImm (dst src : Reg) (imm : Addr) (high : Bool) : Handler Reg Unit :=
  T.vex (T.getExprFromReg src) dst (T.doPshufw dst imm high)

def instrumentPshufwRegMemImm (dst : Reg) (m : MemArg Reg) (imm : Addr) (high : Bool) :
    Handler Reg Unit :=
  T.vex (T.getExprFromMemSrc m) dst (T.doPshufw dst imm high)

/-! ### Shifts -/

def doPshift (dst : Reg) (kind : BinaryKind) (imm width : Nat) (eDst : Expr) : Build Expr :=
  T.builder.pshiftExpr (T.pin.regSize dst) kind eDst imm width

/-- `APInt::getLimitedValue` -/
def limitedValue (v : Nat) : Nat :=
  min v (2 ^ 64 - 1)

def instrumentPshiftRegReg (dst src : Reg) (kind : BinaryKind) (width : Nat) :
    Handler Reg Unit := do
  let eDst ← T.getExprFromReg dst
  -- TODO: support non-linear operation
  T.concretizeReg src
  T.legacy (return eDst) dst (T.doPshift dst kind (limitedValue (T.getRegValue src)) width)

def instrumentPshiftRegImm (dst : Reg) (imm : Addr) (kind : BinaryKind) (width : Nat) :
    Handler Reg Unit :=
  T.legacy (T.getExprFromReg dst) dst (T.doPshift dst kind imm.toNat width)

/-- `instrumentPshiftRegMem`. The count is taken from memory as it is. -/
def instrumentPshiftRegMem (dst : Reg) (m : MemArg Reg) (kind : BinaryKind) (width : Nat) :
    Handler Reg Unit := do
  let eDst ← T.getExprFromReg dst
  -- TODO: support non-linear operation
  T.makeAddrConcrete m
  T.legacy (return eDst) dst
    (T.doPshift dst kind (limitedValue (T.getMemValue m.addr m.size)) width)

def instrumentVpshiftRegRegReg (dst src1 src2 : Reg) (kind : BinaryKind) (width : Nat) :
    Handler Reg Unit := do
  let eSrc1 ← T.getExprFromReg src1
  -- TODO: support non-linear operation
  T.concretizeReg src2
  T.vex (return eSrc1) dst (T.doPshift dst kind (limitedValue (T.getRegValue src2)) width)

def instrumentVpshiftRegRegImm (dst src1 : Reg) (imm : Addr) (kind : BinaryKind)
    (width : Nat) : Handler Reg Unit :=
  T.vex (T.getExprFromReg src1) dst (T.doPshift dst kind imm.toNat width)

/-- `instrumentVpshiftRegRegMem`. The count is taken from memory as it is. -/
def instrumentVpshiftRegRegMem (dst src1 : Reg) (m : MemArg Reg) (kind : BinaryKind)
    (width : Nat) : Handler Reg Unit := do
  let eSrc1 ← T.getExprFromReg src1
  -- TODO: support non-linear operation
  T.makeAddrConcrete m
  T.vex (return eSrc1) dst
    (T.doPshift dst kind (limitedValue (T.getMemValue m.addr m.size)) width)

/-! ### Interleaving -/

def instrumentPunpckhRegReg (dst src : Reg) (width : Nat) : Handler Reg Unit :=
  let size := T.pin.regSize dst
  T.legacy (T.getExprFromRegReg dst src) dst fun x =>
    T.builder.punpckExpr x.1 x.2 width size (size / 2)

def instrumentPunpckhRegMem (dst : Reg) (m : MemArg Reg) (width : Nat) : Handler Reg Unit :=
  T.legacy (T.getExprFromRegMem dst m) dst fun x =>
    T.builder.punpckExpr x.1 x.2 width m.size (m.size / 2)

def instrumentPunpcklRegReg (dst src : Reg) (width : Nat) : Handler Reg Unit :=
  T.legacy (T.getExprFromRegReg dst src) dst fun x =>
    T.builder.punpckExpr x.1 x.2 width (T.pin.regSize dst) 0

def instrumentPunpcklRegMem (dst : Reg) (m : MemArg Reg) (width : Nat) : Handler Reg Unit :=
  T.legacy (T.getExprFromRegMem dst m) dst fun x =>
    T.builder.punpckExpr x.1 x.2 width m.size 0

end Process

end Qsym
