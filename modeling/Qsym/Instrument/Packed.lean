import Qsym.Instrument.PackForm
import Qsym.Instrument.Source

/-!
# Qsym.Instrument.Packed

The **packed instructions** that work lane by lane, with two operands and with three, and the
ones that unpack and that take the signs of the bytes. What an element should be is said with
integers.
-/

namespace X86

open Qsym Bits

/-- The number that a bit vector stands for, with or without a sign. -/
def number {w : Nat} (sign : Bool) (x : BitVec w) : Int :=
  match sign with
  | true => x.toInt
  | false => x.toNat

/-- The opcodes of packed minimum and maximum, each of them with two and with three operands. -/
inductive MinMax
  | pmaxsb | pmaxsd | pmaxsw | pmaxub | pmaxud | pmaxuw
  | pminsb | pminsd | pminsw | pminub | pminud | pminuw
  deriving DecidableEq, Repr

section Numbers

variable {w : Nat}

theorem ofInt_number (sign : Bool) (x : BitVec w) : BitVec.ofInt w (number sign x) = x := by
  cases sign with
  | true => exact BitVec.ofInt_toInt
  | false => rw [number, BitVec.ofInt_natCast, BitVec.ofNat_toNat, BitVec.setWidth_eq]

theorem number_inj {sign : Bool} {x y : BitVec w} : number sign x = number sign y ↔ x = y := by
  constructor
  · intro h
    rw [← ofInt_number sign x, h, ofInt_number]
  · rintro rfl
    rfl

theorem ult_eq_number (x y : BitVec w) : x.ult y = decide (number false x < number false y) := by
  simp [BitVec.ult, number]

theorem select_max (sign : Bool) (x y : BitVec w) :
    (if decide (number sign y < number sign x) = true then x else y) =
      BitVec.ofInt w (max (number sign x) (number sign y)) := by
  simp only [decide_eq_true_eq]
  split
  next h => rw [max_eq_left (by omega), ofInt_number]
  next h => rw [max_eq_right (by omega), ofInt_number]

theorem select_min (sign : Bool) (x y : BitVec w) :
    (if decide (number sign x < number sign y) = true then x else y) =
      BitVec.ofInt w (min (number sign x) (number sign y)) := by
  simp only [decide_eq_true_eq]
  split
  next h => rw [min_eq_left (by omega), ofInt_number]
  next h => rw [min_eq_right (by omega), ofInt_number]

theorem select_ult_max (x y : BitVec w) :
    (if y.ult x then x else y) = BitVec.ofInt w (max (number false x) (number false y)) := by
  rw [ult_eq_number]
  exact select_max false x y

theorem select_ult_min (x y : BitVec w) :
    (if x.ult y then x else y) = BitVec.ofInt w (min (number false x) (number false y)) := by
  rw [ult_eq_number]
  exact select_min false x y

end Numbers

namespace MinMax

/-- The comparison that `analyzeInstruction` passes on. -/
def kind : MinMax → CompareKind
  | pmaxsb | pmaxsd => .sgt
  | pmaxsw => .ugt
  | pmaxub | pmaxud | pmaxuw => .ugt
  | pminsb | pminsd | pminsw => .slt
  | pminub | pminud | pminuw => .ult

/-- The bytes of a lane that it passes on. -/
def width : MinMax → Nat
  | pmaxsb | pmaxub | pminsb | pminub => 1
  | pmaxsw | pmaxuw | pminsw | pminuw => 2
  | pmaxsd | pmaxud | pminsd | pminud => 4

/-- The elements are numbers with a sign. -/
def signed : MinMax → Bool
  | pmaxsb | pmaxsd | pmaxsw | pminsb | pminsd | pminsw => true
  | pmaxub | pmaxud | pmaxuw | pminub | pminud | pminuw => false

/-- The larger element is taken. -/
def isMax : MinMax → Bool
  | pmaxsb | pmaxsd | pmaxsw | pmaxub | pmaxud | pmaxuw => true
  | pminsb | pminsd | pminsw | pminub | pminud | pminuw => false

/-- The element that the machine selects. -/
def element {w : Nat} (op : MinMax) (x y : BitVec w) : BitVec w :=
  let p := number op.signed x
  let q := number op.signed y
  BitVec.ofInt w (if op.isMax then max p q else min p q)

variable {n : Nat}

/-- The destination of the machine. -/
def machine (op : MinMax) (a b : BitVec n) : BitVec n :=
  ofLanes n fun i => op.element (lane (op.width * 8) a i) (lane (op.width * 8) b i)

/-- Words that are compared without signs have the same one. -/
def Agrees (op : MinMax) (a b : BitVec n) : Prop :=
  op = pmaxsw → ∀ i < n / 16, (lane 16 a i).msb = (lane 16 b i).msb

/-- The selection of the handler, lane by lane, is that of the machine. -/
theorem selects_iff (op : MinMax) (hn : op.width * 8 ∣ n) (a b : BitVec n) :
    (ofLanes n fun i => if op.kind.holds (lane (op.width * 8) a i) (lane (op.width * 8) b i)
      then lane (op.width * 8) a i else lane (op.width * 8) b i) = op.machine a b ↔
      op.Agrees a b := by
  have hw : 0 < op.width * 8 := by cases op <;> decide
  refine (ofLanes_inj hw hn).trans ?_
  rw [Agrees]
  cases op with
  | pmaxsw =>
      refine Iff.trans (forall₂_congr fun i _ => ?_) (imp_iff_right rfl).symm
      refine Iff.trans (Eq.congr_right ?_) VexOp.max_ult_iff
      exact (select_max true _ _).symm
  | pmaxsb | pmaxsd => exact iff_of_true (fun i _ => select_max true _ _) nofun
  | pmaxub | pmaxud | pmaxuw => exact iff_of_true (fun i _ => select_ult_max _ _) nofun
  | pminsb | pminsd | pminsw => exact iff_of_true (fun i _ => select_min true _ _) nofun
  | pminub | pminud | pminuw => exact iff_of_true (fun i _ => select_ult_min _ _) nofun

end MinMax

/-! ### Lanes -/

/-- The instructions of which every lane is a function of the lanes of the sources. -/
inductive LaneOp
  | padd (width : Nat) | psub (width : Nat) | pcmpeq (width : Nat) | pcmpgt (width : Nat)
  | pmull (width : Nat) | pmulh (sign : Bool)
  deriving DecidableEq, Repr

namespace LaneOp

/-- The bytes of a lane. -/
def width : LaneOp → Nat
  | padd w | psub w | pcmpeq w | pcmpgt w | pmull w => w
  | pmulh _ => 2

/-- The lanes that there is an opcode for. -/
def Handled : LaneOp → Prop
  | padd w | psub w | pcmpeq w | pcmpgt w => w ∈ [1, 2, 4, 8]
  | pmull w => w ∈ [2, 4]
  | pmulh _ => True

/-- The elements are numbers with a sign. -/
def signed : LaneOp → Bool
  | pcmpgt _ => true
  | pmulh sign => sign
  | _ => false

/-- What becomes of two elements of `w` bits, as numbers. -/
def scalar (op : LaneOp) (w : Nat) (p q : Int) : Int :=
  match op with
  | padd _ => p + q
  | psub _ => p - q
  | pcmpeq _ => if p = q then -1 else 0
  | pcmpgt _ => if q < p then -1 else 0
  | pmull _ => p * q
  | pmulh _ => p * q / 2 ^ w

def element {w : Nat} (op : LaneOp) (x y : BitVec w) : BitVec w :=
  BitVec.ofInt w (op.scalar w (number op.signed x) (number op.signed y))

variable {w n : Nat}

/-- The destination of the machine. -/
def machine (op : LaneOp) (a b : BitVec n) : BitVec n :=
  ofLanes n fun i => op.element (lane (op.width * 8) a i) (lane (op.width * 8) b i)

theorem ofInt_neg_one : BitVec.ofInt w (-1) = BitVec.allOnes w := by
  rw [← BitVec.neg_one_eq_allOnes, BitVec.ofInt_neg]
  rfl

theorem element_padd (k : Nat) (x y : BitVec w) : (padd k).element x y = x + y := by
  rw [element, scalar, BitVec.ofInt_add, ofInt_number, ofInt_number]

theorem element_psub (k : Nat) (x y : BitVec w) : (psub k).element x y = x - y := by
  rw [element, scalar, sub_eq_add_neg, BitVec.ofInt_add, BitVec.ofInt_neg,
    ofInt_number, ofInt_number,
    BitVec.sub_eq_add_neg]

theorem element_pmull (k : Nat) (x y : BitVec w) : (pmull k).element x y = x * y := by
  rw [element, scalar, BitVec.ofInt_mul, ofInt_number, ofInt_number]

theorem element_pcmpeq (k : Nat) (x y : BitVec w) :
    (pcmpeq k).element x y = if CompareKind.equal.holds x y then BitVec.allOnes w else 0 := by
  have h : CompareKind.equal.holds x y = (x == y) := rfl
  simp only [h, element, scalar, number_inj, beq_iff_eq]
  split
  · exact ofInt_neg_one
  · rfl

theorem element_pcmpgt (k : Nat) (x y : BitVec w) :
    (pcmpgt k).element x y = if CompareKind.sgt.holds x y then BitVec.allOnes w else 0 := by
  have h : CompareKind.sgt.holds x y = decide (y.toInt < x.toInt) := rfl
  simp only [h, element, scalar, decide_eq_true_eq]
  change BitVec.ofInt w (if y.toInt < x.toInt then -1 else 0) = _
  split
  · exact ofInt_neg_one
  · rfl

theorem element_pmulh (sign : Bool) (x y : BitVec 16) : (pmulh sign).element x y =
    ((signExt sign).apply 32 x * (signExt sign).apply 32 y).extractLsb' 16 16 := by
  have hext (x : BitVec 16) : (signExt sign).apply 32 x = BitVec.ofInt 32 (number sign x) := by
    cases sign with
    | true => rfl
    | false =>
        rw [number, BitVec.ofInt_natCast, BitVec.ofNat_toNat]
        rfl
  rw [hext, hext, ← BitVec.ofInt_mul]
  apply BitVec.eq_of_toNat_eq
  rw [BitVec.extractLsb'_toNat, element, BitVec.toNat_ofInt, BitVec.toNat_ofInt, scalar, signed,
    Nat.shiftRight_eq_div_pow]
  norm_num
  omega

theorem Handled.width_mem {op : LaneOp} (h : op.Handled) : op.width ∈ [1, 2, 4, 8] := by
  cases op with
  | pmull w => exact (by decide : ∀ w ∈ [2, 4], w ∈ [1, 2, 4, 8]) w h
  | pmulh => exact (by decide : 2 ∈ [1, 2, 4, 8])
  | _ => exact h

end LaneOp

/-! ### Unpacking and signs -/

section Bits

variable {n w : Nat}

/-- Bit `i` is the sign of byte `i`. -/
def signBits {size : Nat} (m : Nat) (a : BitVec (size * 8)) : BitVec m :=
  (ofLanes size fun i => BitVec.ofBool (lane 8 a i).msb).setWidth m

theorem sign_extract (y : BitVec n) (i : Nat) :
    y.extractLsb' (7 + i * 8) 1 = BitVec.ofBool (lane 8 y i).msb := by
  apply BitVec.eq_of_getLsbD_eq
  intro j hj
  obtain rfl : j = 0 := by omega
  rw [BitVec.msb_eq_getLsbD_last]
  simp [lane, Nat.add_comm]

/-- In 128 bits the handlers take the elements that the machine takes. -/
theorem interleaved_eq_unpack (hw : w ∈ [8, 16, 32, 64]) (high : Bool) (a b : BitVec 128) {i : Nat}
    (hi : i < 128 / w) :
    interleaved w (if high then 64 else 0) a b i = VexOp.unpack w high a b i := by
  have hindex : i / 2 * w + (if high then 64 else 0) =
      VexOp.unpackIndex high (128 / w) (i / 2) * w := by
    have hcases : w = 8 ∨ w = 16 ∨ w = 32 ∨ w = 64 := by simpa using hw
    unfold VexOp.unpackIndex
    rcases hcases with rfl | rfl | rfl | rfl
    all_goals cases high
    all_goals simp only [Nat.reduceDiv, if_true, Bool.false_eq_true, if_false] at hi ⊢
    all_goals omega
  rw [interleaved, VexOp.unpack, lane, hindex]

end Bits

end X86

namespace Qsym

open Procedure X86 Bits
open SymbolicExprBuilder (chain)

namespace PackForm

variable {Reg : Type} [DecidableEq Reg] (T : Process Reg)

/-- The handlers of packed minimum and maximum. -/
def pcmpxchg (kind : CompareKind) (width : Nat) : PackForm Reg → Handler Reg Unit
  | regReg dst src => T.instrumentPcmpxchgRegReg dst src kind width
  | regMem dst m => T.instrumentPcmpxchgRegMem dst m kind width
  | regRegReg dst src1 src2 => T.instrumentVpcmpxchgRegRegReg dst src1 src2 kind width
  | regRegMem dst src1 m => T.instrumentVpcmpxchgRegRegMem dst src1 m kind width

/-- The handlers of packed additions and subtractions. -/
def parith (kind : BinaryKind) (width : Nat) : PackForm Reg → Handler Reg Unit
  | regReg dst src => T.instrumentParithRegReg dst src kind width
  | regMem dst m => T.instrumentParithRegMem dst m kind width
  | regRegReg dst src1 src2 => T.instrumentVparithRegRegReg dst src1 src2 kind width
  | regRegMem dst src1 m => T.instrumentVparithRegRegMem dst src1 m kind width

/-- The handlers of packed comparisons. -/
def pcmp (kind : CompareKind) (width : Nat) : PackForm Reg → Handler Reg Unit
  | regReg dst src => T.instrumentPcmpRegReg dst src kind width
  | regMem dst m => T.instrumentPcmpRegMem dst m kind width
  | regRegReg dst src1 src2 => T.instrumentVpcmpRegRegReg dst src1 src2 kind width
  | regRegMem dst src1 m => T.instrumentVpcmpRegRegMem dst src1 m kind width

/-- The handlers of low products. -/
def pmul (width : Nat) : PackForm Reg → Handler Reg Unit
  | regReg dst src => T.instrumentPmulRegReg dst src width
  | regMem dst m => T.instrumentPmulRegMem dst m width
  | regRegReg dst src1 src2 => T.instrumentVpmulRegRegReg dst src1 src2 width
  | regRegMem dst src1 m => T.instrumentVpmulRegRegMem dst src1 m width

/-- The handlers of high products. -/
def pmulhw (sign : Bool) : PackForm Reg → Handler Reg Unit
  | regReg dst src => T.instrumentPmulhwRegReg dst src sign
  | regMem dst m => T.instrumentPmulhwRegMem dst m sign
  | regRegReg dst src1 src2 => T.instrumentVpmulhwRegRegReg dst src1 src2 sign
  | regRegMem dst src1 m => T.instrumentVpmulhwRegRegMem dst src1 m sign

/-- The handlers of the instructions on lanes. -/
def lanes : LaneOp → PackForm Reg → Handler Reg Unit
  | .padd w => parith T .add w
  | .psub w => parith T .sub w
  | .pcmpeq w => pcmp T .equal w
  | .pcmpgt w => pcmp T .sgt w
  | .pmull w => pmul T w
  | .pmulh sign => pmulhw T sign

/-- What they build. -/
def laneExpr (dst : Reg) : LaneOp → Expr × Expr → Build Expr
  | .padd w => T.doParith dst .add w
  | .psub w => T.doParith dst .sub w
  | .pcmpeq w => T.doPcmp dst .equal w
  | .pcmpgt w => T.doPcmp dst .sgt w
  | .pmull w => T.doPmul dst w
  | .pmulh sign => T.doPmulhw dst sign

variable {T} (form : PackForm Reg)

theorem pcmpxchg_eq (kind : CompareKind) (width : Nat) :
    form.pcmpxchg T kind width = form.computes T (T.doPcmpxchg form.dst kind width) := by
  cases form <;> rfl

theorem parith_eq (kind : BinaryKind) (width : Nat) :
    form.parith T kind width = form.computes T (T.doParith form.dst kind width) := by
  cases form <;> rfl

theorem pcmp_eq (kind : CompareKind) (width : Nat) :
    form.pcmp T kind width = form.computes T (T.doPcmp form.dst kind width) := by
  cases form <;> rfl

theorem pmul_eq (width : Nat) : form.pmul T width = form.computes T (T.doPmul form.dst width) := by
  cases form <;> rfl

theorem pmulhw_eq (sign : Bool) : form.pmulhw T sign =
    form.computes T (T.doPmulhw form.dst sign) := by
  cases form <;> rfl

theorem lanes_eq (op : LaneOp) : form.lanes T op = form.computes T (laneExpr T form.dst op) := by
  cases op with
  | padd w | psub w => exact form.parith_eq _ w
  | pcmpeq w | pcmpgt w => exact form.pcmp_eq _ w
  | pmull w => exact form.pmul_eq w
  | pmulh sign => exact form.pmulhw_eq sign

end PackForm

namespace VectorLogicForm

variable {Reg : Type} [DecidableEq Reg] (T : Process Reg)

/-- The operands of a form that reads its destination. -/
def packForm : VectorLogicForm Reg → PackForm Reg
  | regReg dst src => .regReg dst src
  | regMem dst m => .regMem dst m

/-- The handlers of the unpack instructions. -/
def punpck (high : Bool) (width : Nat) (pair : VectorLogicForm Reg) : Handler Reg Unit :=
  match pair, high with
  | regReg dst src, true => T.instrumentPunpckhRegReg dst src width
  | regReg dst src, false => T.instrumentPunpcklRegReg dst src width
  | regMem dst m, true => T.instrumentPunpckhRegMem dst m width
  | regMem dst m, false => T.instrumentPunpcklRegMem dst m width

/-- The bytes that handlers take for the size. -/
def sizeTaken : VectorLogicForm Reg → Nat
  | regReg dst _ => T.pin.regSize dst
  | regMem _ m => m.size

/-- What they build. -/
def punpckExpr (high : Bool) (width : Nat) (pair : VectorLogicForm Reg) (x : Expr × Expr) :
    Build Expr :=
  T.builder.punpckExpr x.1 x.2 width (pair.sizeTaken T) (if high then pair.sizeTaken T / 2 else 0)

variable {T} in
omit [DecidableEq Reg] in
theorem sizeTaken_eq (pair : VectorLogicForm Reg)
    (h : pair.src.size T = T.pin.regSize pair.packForm.dst) :
    pair.sizeTaken T = T.pin.regSize pair.packForm.dst := by
  cases pair with
  | regReg dst src => rfl
  | regMem dst m => exact h

theorem punpck_eq (high : Bool) (width : Nat) (pair : VectorLogicForm Reg) :
    pair.punpck T high width = pair.packForm.computes T (pair.punpckExpr T high width) := by
  cases pair <;> cases high <;> rfl

end VectorLogicForm

/-- The packed instructions. -/
inductive PackedIns (Reg : Type)
  | lanes (op : LaneOp) (form : PackForm Reg)
  | punpck (high : Bool) (width : Nat) (pair : VectorLogicForm Reg)
  | pmovmskb (dst src : Reg)

namespace PackedIns

variable {Reg : Type} [DecidableEq Reg] (T : Process Reg)

def handler : PackedIns Reg → Handler Reg Unit
  | lanes op form => form.lanes T op
  | punpck high width pair => pair.punpck T high width
  | pmovmskb dst src => T.instrumentPmovmskb dst src

def dst : PackedIns Reg → Reg
  | lanes _ form => form.dst
  | punpck _ _ pair => pair.packForm.dst
  | pmovmskb dst _ => dst

/-- There is an opcode for the lanes, and the operands have its size. -/
def Handled : PackedIns Reg → Prop
  | lanes op form => op.Handled ∧ T.pin.regSize form.dst ∈ [8, 16, 32] ∧ form.Sized T
  | punpck _ width pair => width ∈ [1, 2, 4, 8] ∧ T.pin.regSize pair.packForm.dst = 16 ∧
      pair.packForm.Sized T
  | pmovmskb dst src => T.pin.regSize dst ∈ [4, 8] ∧ T.pin.regSize src ∈ [8, 16, 32]

/-- The operands can be read. -/
def Ready : PackedIns Reg → Prop
  | lanes _ form => form.sources.Ready T
  | punpck _ _ pair => pair.Ready T
  | pmovmskb _ src => T.Tracked src

/-- The destination of the machine. -/
def machine (v : ShadowMap Reg) (ins : PackedIns Reg) (ρ : Input) :
    BitVec ((Operand.reg ins.dst).size T * 8) :=
  match ins with
  | lanes op form => op.machine (form.src1Bv T v ρ) (form.src2Bv T v ρ)
  | punpck high width pair => ofLanes _
      (VexOp.unpack (width * 8) high (pair.packForm.src1Bv T v ρ) (pair.packForm.src2Bv T v ρ))
  | pmovmskb _ src => signBits _ ((Operand.reg src).bv T v ρ)

/-- Of operands that stand for `a` and `b` an expression of the full width of the destination is
built that stands for what the machine makes of them. -/
def Computes (σ : Session) : PackedIns Reg → Prop
  | lanes op form => ∀ a b x, Expresses (T.pin.regSize form.dst * 8) a x.1 →
      Expresses (T.pin.regSize form.dst * 8) b x.2 →
        Builds σ exactly (PackForm.laneExpr T form.dst op x)
          (Expresses (T.pin.regSize form.dst * 8) fun ρ => op.machine (a ρ) (b ρ))
  | punpck high width pair => ∀ a b x, Expresses (T.pin.regSize pair.packForm.dst * 8) a x.1 →
      Expresses (T.pin.regSize pair.packForm.dst * 8) b x.2 →
        Builds σ exactly (pair.punpckExpr T high width x)
          (Expresses (T.pin.regSize pair.packForm.dst * 8) fun ρ =>
            ofLanes _ (VexOp.unpack (width * 8) high (a ρ) (b ρ)))
  | pmovmskb dst src => ∀ a e, Expresses (T.pin.regSize src * 8) a e →
      Builds σ exactly (T.builder.pmovmskbExpr e (T.pin.regSize src) (T.pin.regSize dst * 8))
        (Expresses (T.pin.regSize dst * 8) fun ρ => signBits _ (a ρ))

end PackedIns

section Expressions

variable {Reg : Type} [DecidableEq Reg] {T : Process Reg} {σ : Session} {n : Nat}

theorem pmovmskbExpr_expresses {size : Nat} {a : Input → BitVec (size * 8)} {src : Expr}
    (hsize : 0 < size) (hn : size ≤ n) (ha : Expresses (size * 8) a src) :
    Builds σ exactly (chain.pmovmskbExpr src size n) (Expresses n fun ρ => signBits n (a ρ)) := by
  have hlanes : Builds σ exactly (chain.lanes size 1 fun i => chain.createExtract src (7 + i * 8) 1)
      (Expresses size fun ρ => ofLanes size fun i => BitVec.ofBool (lane 8 (a ρ) i).msb) := by
    refine lanes_expresses (w := 1) (k := size) hsize (by omega) (Nat.mul_one size) fun i hi => ?_
    rw [Nat.mul_one]
    refine Total.mono (ha.extract_builds (i := 7 + i * 8) (w := 1) (by omega) (by omega))
      fun e he => ?_
    exact he.congr fun ρ => sign_extract (a ρ) i
  refine Total.bind hlanes fun e he => ?_
  exact he.ext_builds .zext hn

omit [DecidableEq Reg] in
/-- Every lane is the element that the machine computes of those of the sources. -/
theorem laneExpr_expresses (hb : T.builder = chain) {dst : Reg}
    (hn : T.pin.regSize dst ∈ [8, 16, 32])
    {op : LaneOp} (hop : op.Handled) {a b : Input → BitVec (T.pin.regSize dst * 8)}
    {x : Expr × Expr}
    (ha : Expresses (T.pin.regSize dst * 8) a x.1) (hx : Expresses (T.pin.regSize dst * 8) b x.2) :
    Builds σ exactly (PackForm.laneExpr T dst op x)
      (Expresses (T.pin.regSize dst * 8) fun ρ => op.machine (a ρ) (b ρ)) := by
  have hdvd {w : Nat} (hw : w ∈ [1, 2, 4, 8]) :
      0 < w ∧ w * 8 ∣ T.pin.regSize dst * 8 ∧ 0 < T.pin.regSize dst * 8 :=
    (by decide : ∀ n ∈ [8, 16, 32], ∀ w ∈ [1, 2, 4, 8], 0 < w ∧ w * 8 ∣ n * 8 ∧ 0 < n * 8) _ hn w hw
  -- an element is what the builder makes of the two lanes
  have hlanes {f : Input → BitVec (T.pin.regSize dst * 8)} {e : Expr}
      (he : Expresses (T.pin.regSize dst * 8) f e) (hf : ∀ ρ, f ρ = op.machine (a ρ) (b ρ)) :
      Expresses (T.pin.regSize dst * 8) (fun ρ => op.machine (a ρ) (b ρ)) e :=
    he.congr hf
  cases op with
  | padd w =>
      obtain ⟨hw, hdiv, hpos⟩ := hdvd hop
      simp only [PackForm.laneExpr, Process.doParith, hb]
      refine Total.mono (parithExpr_expresses hw hdiv hpos ha hx .add (by decide) rfl) fun e he =>
        ?_
      exact hlanes he fun ρ =>
        congrArg (ofLanes _) (funext fun i => (LaneOp.element_padd w _ _).symm)
  | psub w =>
      obtain ⟨hw, hdiv, hpos⟩ := hdvd hop
      simp only [PackForm.laneExpr, Process.doParith, hb]
      refine Total.mono (parithExpr_expresses hw hdiv hpos ha hx .sub (by decide) rfl) fun e he =>
        ?_
      exact hlanes he fun ρ =>
        congrArg (ofLanes _) (funext fun i => (LaneOp.element_psub w _ _).symm)
  | pcmpeq w =>
      obtain ⟨hw, hdiv, hpos⟩ := hdvd hop
      simp only [PackForm.laneExpr, Process.doPcmp, hb]
      refine Total.mono (pcmpExpr_expresses hw hdiv hpos ha hx .equal) fun e he => ?_
      exact hlanes he fun ρ =>
        congrArg (ofLanes _) (funext fun i => (LaneOp.element_pcmpeq w _ _).symm)
  | pcmpgt w =>
      obtain ⟨hw, hdiv, hpos⟩ := hdvd hop
      simp only [PackForm.laneExpr, Process.doPcmp, hb]
      refine Total.mono (pcmpExpr_expresses hw hdiv hpos ha hx .sgt) fun e he => ?_
      exact hlanes he fun ρ =>
        congrArg (ofLanes _) (funext fun i => (LaneOp.element_pcmpgt w _ _).symm)
  | pmull w =>
      have hhandled : (LaneOp.pmull w).Handled := hop
      obtain ⟨hw, hdiv, hpos⟩ := hdvd hhandled.width_mem
      simp only [PackForm.laneExpr, Process.doPmul, hb]
      refine Total.mono (pmulExpr_expresses hw hdiv hpos ha hx) fun e he => ?_
      exact hlanes he fun ρ =>
        congrArg (ofLanes _) (funext fun i => (LaneOp.element_pmull w _ _).symm)
  | pmulh sign =>
      have hsize : 4 ∣ T.pin.regSize dst ∧ 0 < T.pin.regSize dst :=
        (by decide : ∀ n ∈ [8, 16, 32], 4 ∣ n ∧ 0 < n) _ hn
      simp only [PackForm.laneExpr, Process.doPmulhw, hb]
      refine Total.mono (pmulhwExpr_expresses hsize.1 hsize.2 ha hx sign) fun e he => ?_
      exact hlanes he fun ρ =>
        congrArg (ofLanes _) (funext fun i => (LaneOp.element_pmulh sign _ _).symm)

end Expressions

namespace Process

open Handler Stateful

variable {Reg : Type} [DecidableEq Reg] {T : Process Reg} {σ : Session} {s : Shadow}
variable {form : PackForm Reg}

section Handlers

variable (hP : T.pin.Documented) (hb : T.builder = chain) (hs : s.WellFormed)
  (hv : T.Consistent σ.input (T.peek s))

include hP hb hs hv in
/-- **Packed minimum and maximum.** The handler returns, and every element of the destination is
the one that the machine selects if and only if the opcode is not `PMAXSW`, or the words that are
compared have the same sign, or neither source depends on the input. -/
theorem instrumentPcmpxchg_selects_iff (hn : T.pin.regSize form.dst ∈ [8, 16, 32])
    (hform : form.Sized T) (hready : form.sources.Ready T)
    (hdst : T.Tracked form.dst) (op : MinMax) :
    Achieves (body σ) exactly (form.pcmpxchg T op.kind op.width) s fun _ s' _ => ∀ ρ,
      Delivers σ.input T (T.peek s') (.reg form.dst) (fun ρ =>
          op.machine (form.src1Bv T (T.peek s) ρ) (form.src2Bv T (T.peek s) ρ)) ρ ↔
        (form.sources.Depends T (T.peek s) →
          op.Agrees (form.src1Bv T (T.peek s) ρ) (form.src2Bv T (T.peek s) ρ)) := by
  have hw : 0 < op.width ∧ op.width * 8 ∣ T.pin.regSize form.dst * 8 ∧
      0 < T.pin.regSize form.dst * 8 := by
    have hmem : op.width ∈ [1, 2, 4] := by cases op <;> decide
    exact (by decide : ∀ n ∈ [8, 16, 32], ∀ w ∈ [1, 2, 4], 0 < w ∧ w * 8 ∣ n * 8 ∧
      0 < n * 8) _ hn _ hmem
  rw [form.pcmpxchg_eq]
  refine Achieves.mono (computes_achieves (u := fun ρ => ofLanes _ fun i =>
    if op.kind.holds (lane (op.width * 8) (form.src1Bv T (T.peek s) ρ) i)
        (lane (op.width * 8) (form.src2Bv T (T.peek s) ρ) i)
      then lane (op.width * 8) (form.src1Bv T (T.peek s) ρ) i
      else lane (op.width * 8) (form.src2Bv T (T.peek s) ρ) i)
    hP hb hs hv hn hform hready hdst fun x ha hx => ?_) fun _ s' _ hlands ρ => ?_
  · rw [doPcmpxchg, hb]
    exact pcmpxchgExpr_expresses hw.1 hw.2.1 hw.2.2 ha hx op.kind
  · have hconst := sources_constant hv form
    rw [hlands.delivers_iff (fun hdep ρ => by rw [(hconst hdep ρ).1, (hconst hdep ρ).2]) ρ]
    exact imp_congr_right fun _ => op.selects_iff hw.2.1 _ _

/-! ### Lanes, unpacking and signs -/

omit [DecidableEq Reg] in
include hb in
theorem punpckExpr_unpacks {pair : VectorLogicForm Reg} (hn : T.pin.regSize pair.packForm.dst = 16)
    (hpair : pair.packForm.Sized T) {width : Nat} (hw : width ∈ [1, 2, 4, 8]) (high : Bool)
    {a b : Input → BitVec (T.pin.regSize pair.packForm.dst * 8)} {x : Expr × Expr}
    (ha : Expresses (T.pin.regSize pair.packForm.dst * 8) a x.1)
    (hx : Expresses (T.pin.regSize pair.packForm.dst * 8) b x.2) :
    Builds σ exactly (pair.punpckExpr T high width x)
      (Expresses (T.pin.regSize pair.packForm.dst * 8) fun ρ =>
        ofLanes _ (VexOp.unpack (width * 8) high (a ρ) (b ρ))) := by
  have hsize : pair.sizeTaken T = T.pin.regSize pair.packForm.dst :=
    pair.sizeTaken_eq (by cases pair <;> exact hpair.2)
  have hoff : (if high then T.pin.regSize pair.packForm.dst / 2 else 0) ≤
      T.pin.regSize pair.packForm.dst / 2 := by
    split <;> omega
  have hbuilt := punpck_expresses (σ := σ) hb hw (by rw [hn]; decide) hoff ha hx
  unfold VectorLogicForm.punpckExpr
  rw [hsize]
  refine hbuilt.mono fun e he => he.congr fun ρ => ?_
  generalize T.pin.regSize pair.packForm.dst = n at hn a b
  subst hn
  have hoff8 : (if high then 16 / 2 else 0) * 8 = if high then 64 else 0 := by cases high <;> rfl
  rw [hoff8]
  exact ofLanes_congr fun i hi => interleaved_eq_unpack
    ((by decide : ∀ w ∈ [1, 2, 4, 8], w * 8 ∈ [8, 16, 32, 64]) _ hw) high (a ρ) (b ρ) hi

omit [DecidableEq Reg] in
include hb in
theorem packed_computes {ins : PackedIns Reg} (hins : ins.Handled T) : ins.Computes T σ := by
  cases ins with
  | lanes op form => exact fun a b x ha hx => laneExpr_expresses hb hins.2.1 hins.1 ha hx
  | punpck high width pair =>
      exact fun a b x ha hx => punpckExpr_unpacks hb hins.2.1 hins.2.2 hins.1 high ha hx
  | pmovmskb dst src =>
      intro a e he
      have hsizes : 0 < T.pin.regSize src ∧ T.pin.regSize src ≤ T.pin.regSize dst * 8 :=
        (by decide : ∀ d ∈ [4, 8], ∀ n ∈ [8, 16, 32], 0 < n ∧ n ≤ d * 8) _ hins.1 _ hins.2
      rw [hb]
      exact pmovmskbExpr_expresses hsizes.1 hsizes.2 he

include hP hb hs hv in
/-- A handler with two sources delivers what is built of them. -/
theorem computes_delivers (hn : T.pin.regSize form.dst ∈ [8, 16, 32]) (hform : form.Sized T)
    (hready : form.sources.Ready T) (hdst : T.Tracked form.dst) {result : Expr × Expr → Build Expr}
    {f : BitVec ((Operand.reg form.dst).size T * 8) → BitVec ((Operand.reg form.dst).size T * 8) →
      BitVec ((Operand.reg form.dst).size T * 8)}
    (hres : ∀ a b x, Expresses (T.pin.regSize form.dst * 8) a x.1 →
      Expresses (T.pin.regSize form.dst * 8) b x.2 →
        Builds σ exactly (result x)
          (Expresses (T.pin.regSize form.dst * 8) fun ρ => f (a ρ) (b ρ))) :
    Achieves (body σ) exactly (form.computes T result) s fun _ s' _ => ∀ ρ,
      Delivers σ.input T (T.peek s') (.reg form.dst)
        (fun ρ => f (form.src1Bv T (T.peek s) ρ) (form.src2Bv T (T.peek s) ρ)) ρ := by
  refine (computes_achieves hP hb hs hv hn hform hready hdst fun x ha hx =>
    hres _ _ x ha hx).mono fun _ s' _ hlands ρ => ?_
  have hconst := sources_constant hv form
  rw [hlands.delivers_iff (fun hdep ρ => by rw [(hconst hdep ρ).1, (hconst hdep ρ).2]) ρ]
  exact fun _ => rfl

include hP hb hs hv in
/-- **Lane-wise instructions.** What is built has the width of the destination, and every lane
of it is the element that the machine computes of the corresponding lanes of the sources, as
numbers; an unpack instruction takes the elements in turn, and PMOVMSKB the signs of the bytes.
The handlers return and deliver that. -/
theorem instrumentPacked_delivers {ins : PackedIns Reg} (hins : ins.Handled T)
    (hready : ins.Ready T)
    (hdst : T.Tracked ins.dst) :
    ins.Computes T σ ∧ Achieves (body σ) exactly (ins.handler T) s fun _ s' _ => ∀ ρ,
      Delivers σ.input T (T.peek s') (.reg ins.dst) (ins.machine T (T.peek s)) ρ := by
  have hcomputes := packed_computes (σ := σ) hb hins
  refine ⟨hcomputes, ?_⟩
  cases ins with
  | lanes op form =>
      rw [PackedIns.handler, form.lanes_eq]
      exact computes_delivers hP hb hs hv hins.2.1 hins.2.2 hready hdst hcomputes
  | punpck high width pair =>
      have hmem : T.pin.regSize pair.packForm.dst ∈ [8, 16, 32] := by
        rw [hins.2.1]
        decide
      have hsources : pair.packForm.sources.Ready T := by cases pair <;> exact hready
      rw [PackedIns.handler, pair.punpck_eq]
      exact computes_delivers (f := fun a b => ofLanes _ (VexOp.unpack (width * 8) high a b))
        hP hb hs hv hmem hins.2.2 hsources hdst hcomputes
  | pmovmskb dst src =>
      have hone : (Operand.reg src).size T ≠ 1 :=
        (by decide : ∀ n ∈ [8, 16, 32], n ≠ 1) _ hins.2
      have h := vexSource_achieves (o := .reg src) hP hb hs hv
          (getExprFromReg_returns hP hb hs hready)
        (get_gets hP hb (.reg src)) (get_attends hP hb hone) hdst fun _ => hcomputes _
      refine h.mono fun _ s' _ ⟨_, hprovides⟩ ρ =>
        (hprovides.delivers_iff ρ).2 ⟨fun _ => rfl, fun hnot => ?_⟩
      rw [PackedIns.machine, PackedIns.machine, hv.bv_constant hnot ρ]

end Handlers

open X86Reg (process shadow)

/-- `P* XMM0, XMM1` -/
def packedXmm : PackForm X86Reg :=
  .regReg .xmm0 .xmm1

theorem packedXmm_ready : packedXmm.sources.Ready process :=
  ⟨X86Reg.tracked (by decide), X86Reg.tracked (by decide)⟩

/-- `PMINSW XMM0, XMM1`, where a byte of `XMM1` is read from the input. -/
theorem instrumentPcmpxchg_pminsw : ∃ s' l w',
    Runs (body quietSession) (process.instrumentPcmpxchgRegReg .xmm0 .xmm1 .slt 2
      (shadow [xmm1Cell + 1]))
      (freshWorld 1) ((), s', l) w' ∧
      ∀ ρ, Delivers quietSession.input process (process.peek s') (.reg .xmm0) (fun ρ =>
        MinMax.pminsw.machine (packedXmm.src1Bv process (process.peek (shadow [xmm1Cell + 1])) ρ)
          (packedXmm.src2Bv process (process.peek (shadow [xmm1Cell + 1])) ρ)) ρ := by
  have hsized : packedXmm.Sized process := ⟨rfl, rfl⟩
  have h := instrumentPcmpxchg_selects_iff (σ := quietSession) X86Reg.registers_documented rfl
    (X86Reg.shadow_init_wellFormed [xmm1Cell + 1]) (X86Reg.shadow_consistent [xmm1Cell + 1])
    (by decide) hsized packedXmm_ready (X86Reg.tracked (by decide)) .pminsw
  obtain ⟨⟨_, s', l⟩, w', hr, _, hright⟩ := h (freshWorld 1) trivial
    (safe_exactly (n := 40) (by decide +kernel))
  exact ⟨s', l, w', hr, fun ρ => (hright ρ).mpr fun _ => nofun⟩

/-- `PMAXSW XMM0, XMM1` of a word of `XMM1` that is -32768 does not give the word 0 of `XMM0`. -/
theorem instrumentPcmpxchg_pmaxsw_not : ∃ s' l w',
    Runs (body quietSession)
      (process.instrumentPcmpxchgRegReg .xmm0 .xmm1 MinMax.pmaxsw.kind 2 (shadow [xmm1Cell + 1]))
      (freshWorld 1) ((), s', l) w' ∧
      ¬ Delivers quietSession.input process (process.peek s') (.reg .xmm0) (fun ρ =>
        MinMax.pmaxsw.machine (packedXmm.src1Bv process (process.peek (shadow [xmm1Cell + 1])) ρ)
          (packedXmm.src2Bv process (process.peek (shadow [xmm1Cell + 1])) ρ)) fun _ => 128 := by
  have hp : ((process.instrumentPcmpxchgRegReg .xmm0 .xmm1 .ugt 2 (shadow [xmm1Cell + 1])).run
      (exec (body quietSession) 40) (freshWorld 1)).map (fun x =>
        (process.peek x.1.2.1 (.reg .ymm0 1)).map fun e => e.value fun _ => 128) =
          some (some 128) := by
    decide +kernel
  obtain ⟨⟨⟨_, s', l⟩, w'⟩, hrun, hbyte⟩ := Option.map_eq_some_iff.1 hp
  refine ⟨s', l, w', ⟨40, hrun⟩, fun hright => ?_⟩
  obtain ⟨e, he, hval⟩ := Option.map_eq_some_iff.1 hbyte
  have he : process.peek s' ((Operand.reg .xmm0).place process 1) = some e := he
  have hzero : Bytes.byte (MinMax.pmaxsw.machine
      (packedXmm.src1Bv process (process.peek (shadow [xmm1Cell + 1])) fun _ => 128)
      (packedXmm.src2Bv process (process.peek (shadow [xmm1Cell + 1])) fun _ => 128)).toNat 1 =
        0 := by
    decide +kernel
  have h := hright 1 (by decide)
  rw [he] at h
  exact absurd ((hval.symm.trans h).trans hzero) (by decide)

/-- `PMULHW XMM0, XMM1`, where a byte of `XMM1` is read from the input. -/
theorem instrumentPacked_pmulhw : ∃ s' l w',
    Runs (body quietSession) (process.instrumentPmulhwRegReg .xmm0 .xmm1 true
      (shadow [xmm1Cell + 1]))
      (freshWorld 1) ((), s', l) w' ∧
      ∀ ρ, Delivers quietSession.input process (process.peek s') (.reg .xmm0) (fun ρ =>
        (LaneOp.pmulh true).machine
          (packedXmm.src1Bv process (process.peek (shadow [xmm1Cell + 1])) ρ)
          (packedXmm.src2Bv process (process.peek (shadow [xmm1Cell + 1])) ρ)) ρ := by
  have hins : (PackedIns.lanes (.pmulh true) packedXmm).Handled process :=
    ⟨trivial, by decide, rfl, rfl⟩
  have h := (instrumentPacked_delivers (σ := quietSession) X86Reg.registers_documented rfl
    (X86Reg.shadow_init_wellFormed [xmm1Cell + 1]) (X86Reg.shadow_consistent [xmm1Cell + 1])
    hins packedXmm_ready (X86Reg.tracked (by decide))).2
  obtain ⟨⟨_, s', l⟩, w', hr, _, hright⟩ := h (freshWorld 1) trivial
    (safe_exactly (n := 40) (by decide +kernel))
  exact ⟨s', l, w', hr, hright⟩

/-- `ZExt((Concat(Read 1, Read 0) / 256), 128) / 256`, which is zero. -/
def wideQuotient : Expr :=
  .binary 5 .udiv
    (.ext 3 .zext (.binary 2 .udiv (.concat 0 (.read 1) (.read 0)) (.constant 1 16 256)) 128)
    (.constant 4 128 256)

/-- A shadow that has the quotient in `XMM0`. -/
def wideShadow : Shadow :=
  { shadow [] with
    regs := fun addr => if 72 ≤ addr ∧ addr < 88
      then some (.extract (6 + addr) wideQuotient ((addr - 72) * 8) 8) else none }

theorem wideShadow_regs {addr : Nat} {e : Expr} (h : wideShadow.regs addr = some e) :
    ∃ ref, ∃ i < 16, e = .extract ref wideQuotient (i * 8) 8 := by
  have h : (if 72 ≤ addr ∧ addr < 88 then some _ else none) = some e := h
  split at h
  next hlt => exact ⟨6 + addr, addr - 72, by omega, (Option.some.inj h).symm⟩
  next => cases h

theorem wideShadow_wellFormed : wideShadow.WellFormed := by
  refine ⟨fun addr e he => ?_, fun addr e he => ?_⟩
  · obtain ⟨ref, i, hi, rfl⟩ := wideShadow_regs he
    have hquotient : wideQuotient.IsBV 128 := ⟨by decide, rfl, rfl⟩
    refine ⟨?_, Expr.isBV_extract hquotient (by decide) (by omega) _⟩
    simp [Expr.Trimmed, Expr.Cut, wideQuotient]
  · cases (X86Reg.onePage_peek addr).symm.trans he

theorem wideShadow_consistent :
    process.Consistent quietSession.input (process.peek wideShadow) := by
  intro k e he
  obtain ⟨addr, he⟩ := X86Reg.exists_regs_of_peek rfl he
  obtain ⟨ref, i, hi, rfl⟩ := wideShadow_regs he
  have hzero : wideQuotient.value quietSession.input = 0 := by decide +kernel
  have hslice : Bits.slice 0 (i * 8) 8 = 0 := by simp [Bits.slice]
  rw [Expr.value, hzero, hslice]
  cases k <;> rfl

/-- `PADDW XMM0, XMM1` of the quotient and of zero divides by zero in the lowest lane. -/
theorem instrumentPacked_paddw_not : wideShadow.WellFormed ∧
    process.Consistent quietSession.input (process.peek wideShadow) ∧ ∃ s' l w',
    Runs (body quietSession) (process.instrumentParithRegReg .xmm0 .xmm1 .add 2 wideShadow)
      (freshWorld 100) ((), s', l) w' ∧
      ¬ Delivers quietSession.input process (process.peek s') (.reg .xmm0) (fun ρ =>
        (LaneOp.padd 2).machine (packedXmm.src1Bv process (process.peek wideShadow) ρ)
          (packedXmm.src2Bv process (process.peek wideShadow) ρ)) fun _ => 255 := by
  have hp : ((process.instrumentParithRegReg .xmm0 .xmm1 .add 2 wideShadow).run
      (exec (body quietSession) 40) (freshWorld 100)).map (fun x =>
        (process.peek x.1.2.1 (.reg .ymm0 0)).map fun e => e.value fun _ => 255) =
          some (some 255) := by
    decide +kernel
  obtain ⟨⟨⟨_, s', l⟩, w'⟩, hrun, hbyte⟩ := Option.map_eq_some_iff.1 hp
  refine ⟨wideShadow_wellFormed, wideShadow_consistent, s', l, w', ⟨40, hrun⟩, fun hright => ?_⟩
  obtain ⟨e, he, hval⟩ := Option.map_eq_some_iff.1 hbyte
  have he : process.peek s' ((Operand.reg .xmm0).place process 0) = some e := he
  have hzero : Bytes.byte ((LaneOp.padd 2).machine
      (packedXmm.src1Bv process (process.peek wideShadow) fun _ => 255)
      (packedXmm.src2Bv process (process.peek wideShadow) fun _ => 255)).toNat 0 = 0 := by
    decide +kernel
  have h := hright 0 (by decide)
  rw [he] at h
  exact absurd ((hval.symm.trans h).trans hzero) (by decide)

end Process

end Qsym
