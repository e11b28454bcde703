import Qsym.Instrument.Logical
import Qsym.Instrument.Settled
import Qsym.Instrument.Vex

/-!
# Qsym.Instrument.VexForm

The **handlers** of the VEX forms. The destination is right if its bytes stand for those of the
machine, which only depend on the sources. It is so if and only if the instruction agrees with
the machine, in case that an operand the handler reads depends on the input, and else if the
result of the machine does not depend on it either (`instrumentVex_right_iff`).
-/

namespace Qsym

open Procedure X86
open SymbolicExprBuilder (chain)

/-- The operands of the instructions on lanes. -/
inductive VexForm (Reg : Type)
  | regReg (dst src1 src2 : Reg)
  | regMem (dst src1 : Reg) (m : MemArg Reg)

/-- The operands of the shifts. -/
inductive VexShiftForm (Reg : Type)
  | regReg (dst src1 src2 : Reg)
  | regMem (dst src1 : Reg) (m : MemArg Reg)
  | regImm (dst src1 : Reg) (imm : Addr)

/-- The instructions with two sources. -/
inductive VexIns (Reg : Type)
  | lanes (op : VexOp) (form : VexForm Reg)
  | shift (op : VexShift) (width : Nat) (form : VexShiftForm Reg)

namespace VexForm

variable {Reg : Type} [DecidableEq Reg] (T : Process Reg)

/-- The handlers that `analyzeInstruction` selects. `VPAND` and the unpack instructions go to the
forms with two operands, which are the first two of three. -/
def handler (form : VexForm Reg) (op : VexOp) : Handler Reg Unit :=
  match form, op with
  | regReg dst src1 _, .vpand => T.instrumentBinaryRegReg dst src1 .and true
  | regReg dst src1 src2, .vpor => T.instrumentTernaryRegRegReg dst src1 src2 .or
  | regReg dst src1 src2, .vpxor => T.instrumentTernaryRegRegReg dst src1 src2 .xor
  | regReg dst src1 src2, .vxorps => T.instrumentTernaryRegRegReg dst src1 src2 .xor
  | regReg dst src1 src2, .vpadd w => T.instrumentVparithRegRegReg dst src1 src2 .add w
  | regReg dst src1 src2, .vpsub w => T.instrumentVparithRegRegReg dst src1 src2 .sub w
  | regReg dst src1 src2, .vpcmpeq w => T.instrumentVpcmpRegRegReg dst src1 src2 .equal w
  | regReg dst src1 src2, .vpcmpgt w => T.instrumentVpcmpRegRegReg dst src1 src2 .sgt w
  | regReg dst src1 src2, .vpmaxs w => T.instrumentVpcmpxchgRegRegReg dst src1 src2 (VexOp.maxs w) w
  | regReg dst src1 src2, .vpmaxu w => T.instrumentVpcmpxchgRegRegReg dst src1 src2 .ugt w
  | regReg dst src1 src2, .vpmins w => T.instrumentVpcmpxchgRegRegReg dst src1 src2 .slt w
  | regReg dst src1 src2, .vpminu w => T.instrumentVpcmpxchgRegRegReg dst src1 src2 .ult w
  | regReg dst src1 src2, .vpmull w => T.instrumentVpmulRegRegReg dst src1 src2 w
  | regReg dst src1 src2, .vpmulhw => T.instrumentVpmulhwRegRegReg dst src1 src2 true
  | regReg dst src1 src2, .vpmulhuw => T.instrumentVpmulhwRegRegReg dst src1 src2 false
  | regReg dst src1 src2, .vpmaddwd => T.instrumentVpmaddwdRegRegReg dst src1 src2
  | regReg dst src1 src2, .vpshufb => T.instrumentVpshufbRegRegReg dst src1 src2
  | regReg dst src1 src2, .vpackss w => T.instrumentVpackRegRegReg dst src1 src2 w true
  | regReg dst src1 src2, .vpackus w => T.instrumentVpackRegRegReg dst src1 src2 w false
  | regReg dst src1 _, .vpunpckh w => T.instrumentPunpckhRegReg dst src1 w
  | regReg dst src1 _, .vpunpckl w => T.instrumentPunpcklRegReg dst src1 w
  | regMem dst src1 _, .vpand => T.instrumentBinaryRegReg dst src1 .and true
  | regMem dst src1 m, .vpor => T.instrumentTernaryRegRegMem dst src1 m .or
  | regMem dst src1 m, .vpxor => T.instrumentTernaryRegRegMem dst src1 m .xor
  | regMem dst src1 m, .vxorps => T.instrumentTernaryRegRegMem dst src1 m .xor
  | regMem dst src1 m, .vpadd w => T.instrumentVparithRegRegMem dst src1 m .add w
  | regMem dst src1 m, .vpsub w => T.instrumentVparithRegRegMem dst src1 m .sub w
  | regMem dst src1 m, .vpcmpeq w => T.instrumentVpcmpRegRegMem dst src1 m .equal w
  | regMem dst src1 m, .vpcmpgt w => T.instrumentVpcmpRegRegMem dst src1 m .sgt w
  | regMem dst src1 m, .vpmaxs w => T.instrumentVpcmpxchgRegRegMem dst src1 m (VexOp.maxs w) w
  | regMem dst src1 m, .vpmaxu w => T.instrumentVpcmpxchgRegRegMem dst src1 m .ugt w
  | regMem dst src1 m, .vpmins w => T.instrumentVpcmpxchgRegRegMem dst src1 m .slt w
  | regMem dst src1 m, .vpminu w => T.instrumentVpcmpxchgRegRegMem dst src1 m .ult w
  | regMem dst src1 m, .vpmull w => T.instrumentVpmulRegRegMem dst src1 m w
  | regMem dst src1 m, .vpmulhw => T.instrumentVpmulhwRegRegMem dst src1 m true
  | regMem dst src1 m, .vpmulhuw => T.instrumentVpmulhwRegRegMem dst src1 m false
  | regMem dst src1 m, .vpmaddwd => T.instrumentVpmaddwdRegRegMem dst src1 m
  | regMem dst src1 m, .vpshufb => T.instrumentVpshufbRegRegMem dst src1 m
  | regMem dst src1 m, .vpackss w => T.instrumentVpackRegRegMem dst src1 m w true
  | regMem dst src1 m, .vpackus w => T.instrumentVpackRegRegMem dst src1 m w false
  | regMem dst src1 _, .vpunpckh w => T.instrumentPunpckhRegReg dst src1 w
  | regMem dst src1 _, .vpunpckl w => T.instrumentPunpcklRegReg dst src1 w

def dst : VexForm Reg → Reg
  | regReg dst .. | regMem dst .. => dst

def src1 : VexForm Reg → Reg
  | regReg _ src1 _ | regMem _ src1 _ => src1

def src2 : VexForm Reg → Operand Reg
  | regReg _ _ src2 => .reg src2
  | regMem _ _ m => .mem m.addr m.size

/-- The operands can be read, and the destination written. -/
def Ready : VexForm Reg → Prop
  | regReg dst src1 src2 => T.Tracked dst ∧ T.Tracked src1 ∧ T.Tracked src2
  | regMem dst src1 m => T.Tracked dst ∧ T.Tracked src1 ∧ T.Addressed m

/-- What the handlers read. -/
def read (form : VexForm Reg) (op : VexOp) : List (Operand Reg) :=
  if op.threeOperands then [.reg form.src1, form.src2] else [.reg form.dst, .reg form.src1]

section

variable (v : ShadowMap Reg) (form : VexForm Reg) (ρ : Input)

def dstBv : BitVec ((Operand.reg form.dst).size T * 8) :=
  (Operand.reg form.dst).bv T v ρ

def src1Bv : BitVec ((Operand.reg form.dst).size T * 8) :=
  ((Operand.reg form.src1).bv T v ρ).setWidth _

def src2Bv : BitVec ((Operand.reg form.dst).size T * 8) :=
  (form.src2.bv T v ρ).setWidth _

end

/-- The operands of the handlers with three. -/
def operands : VexForm Reg → Handler Reg (Option (Expr × Expr))
  | regReg _ src1 src2 => T.getExprFromRegReg src1 src2
  | regMem _ src1 m => T.getExprFromRegMem src1 m

/-- The result of the handlers with three operands. -/
def result (dst : Reg) : VexOp → Expr × Expr → Build Expr
  | .vpor => fun x => T.builder.createBinaryExpr .or x.1 x.2
  | .vpxor | .vxorps => fun x => T.builder.createBinaryExpr .xor x.1 x.2
  | .vpadd w => T.doParith dst .add w
  | .vpsub w => T.doParith dst .sub w
  | .vpcmpeq w => T.doPcmp dst .equal w
  | .vpcmpgt w => T.doPcmp dst .sgt w
  | .vpmaxs w => T.doPcmpxchg dst (VexOp.maxs w) w
  | .vpmaxu w => T.doPcmpxchg dst .ugt w
  | .vpmins w => T.doPcmpxchg dst .slt w
  | .vpminu w => T.doPcmpxchg dst .ult w
  | .vpmull w => T.doPmul dst w
  | .vpmulhw => T.doPmulhw dst true
  | .vpmulhuw => T.doPmulhw dst false
  | .vpmaddwd => T.doPmaddwd dst
  | .vpshufb => T.doPshufb dst
  | .vpackss w => T.doPack dst w true
  | .vpackus w => T.doPack dst w false
  | .vpand | .vpunpckh _ | .vpunpckl _ => fun _ => .stop

variable {T} {form : VexForm Reg} {op : VexOp}

theorem handler_eq (hop : op.threeOperands = true) :
    form.handler T op = T.vex (form.operands T) form.dst (result T form.dst op) := by
  cases form <;> cases op <;> first | rfl | cases hop

theorem Ready.tracked (h : form.Ready T) : T.Tracked form.dst ∧ T.Tracked form.src1 := by
  cases form with
  | regReg | regMem => exact ⟨h.1, h.2.1⟩

end VexForm

namespace VexShiftForm

variable {Reg : Type} [DecidableEq Reg] (T : Process Reg)

def handler (form : VexShiftForm Reg) (op : VexShift) (width : Nat) : Handler Reg Unit :=
  match form with
  | regReg dst src1 src2 => T.instrumentVpshiftRegRegReg dst src1 src2 op.kind width
  | regMem dst src1 m => T.instrumentVpshiftRegRegMem dst src1 m op.kind width
  | regImm dst src1 imm => T.instrumentVpshiftRegRegImm dst src1 imm op.kind width

def dst : VexShiftForm Reg → Reg
  | regReg dst .. | regMem dst .. | regImm dst .. => dst

def src1 : VexShiftForm Reg → Reg
  | regReg _ src1 _ | regMem _ src1 _ | regImm _ src1 _ => src1

def src1Bv (v : ShadowMap Reg) (form : VexShiftForm Reg) (ρ : Input) :
    BitVec ((Operand.reg form.dst).size T * 8) :=
  ((Operand.reg form.src1).bv T v ρ).setWidth _

/-- The bits of a count, which is one of bytes for the widest lanes. -/
def bits (width count : Nat) : Nat :=
  if width = 16 then count * 8 else count

/-- The bits that the handler makes of a count, in a number of 64 bits. -/
def taken (width count : Nat) : Nat :=
  if width = 16 then count * 8 % 2 ^ 64 else count

/-- The count of the machine: the low 64 bits of the second source. -/
def count (v : ShadowMap Reg) (form : VexShiftForm Reg) (ρ : Input) : Nat :=
  match form with
  | regReg _ _ src2 => ((Operand.reg src2).bv T v ρ).toNat % 2 ^ 64
  | regMem _ _ m => ((Operand.mem m.addr m.size).bv T v ρ).toNat % 2 ^ 64
  | regImm _ _ imm => imm.toNat

/-- The count of the handler: the second source as the process has it. -/
def given : VexShiftForm Reg → Nat
  | regReg _ _ src2 => Process.limitedValue (T.getRegValue src2)
  | regMem _ _ m => Process.limitedValue (T.getMemValue m.addr m.size)
  | regImm _ _ imm => imm.toNat

/-- What is concretised. -/
def fixed : VexShiftForm Reg → List (Operand Reg)
  | regReg _ _ src2 => [.reg src2]
  | _ => []

/-- The operands can be read. -/
def Ready : VexShiftForm Reg → Prop
  | regReg _ src1 src2 => T.Tracked src1 ∧ T.Tracked src2
  | regMem _ src1 m => T.Tracked src1 ∧ T.Addressed m
  | regImm _ src1 _ => T.Tracked src1

variable {T} in
theorem Ready.src1 {form : VexShiftForm Reg} (h : form.Ready T) : T.Tracked form.src1 := by
  cases form with
  | regReg | regMem => exact h.1
  | regImm => exact h

end VexShiftForm

namespace VexIns

variable {Reg : Type} [DecidableEq Reg] (T : Process Reg)

def handler : VexIns Reg → Handler Reg Unit
  | lanes op form => form.handler T op
  | shift op width form => form.handler T op width

def dst : VexIns Reg → Reg
  | lanes _ form => form.dst
  | shift _ _ form => form.dst

/-- What the handler reads. -/
def read : VexIns Reg → List (Operand Reg)
  | lanes op form => form.read op
  | shift _ _ form => [.reg form.src1]

/-- What the handler concretises. -/
def fixed : VexIns Reg → List (Operand Reg)
  | lanes .. => []
  | shift _ _ form => form.fixed

/-- There is an opcode for the lanes, and the operands have its size. -/
def Handled : VexIns Reg → Prop
  | lanes op form => op.Handled ∧ T.pin.regSize form.dst ∈ [16, 32] ∧
      T.pin.regSize form.src1 = T.pin.regSize form.dst ∧ form.src2.size T = T.pin.regSize form.dst
  | shift op width form => op.Handled width ∧ T.pin.regSize form.dst ∈ [16, 32] ∧
      T.pin.regSize form.src1 = T.pin.regSize form.dst

/-- The operands can be read, and the destination written. -/
def Ready : VexIns Reg → Prop
  | lanes _ form => form.Ready T
  | shift _ _ form => T.Tracked form.dst ∧ form.Ready T

section

variable (v : ShadowMap Reg) (ins : VexIns Reg) (ρ : Input)

/-- The destination of the machine. -/
def machine : BitVec ((Operand.reg ins.dst).size T * 8) :=
  match ins with
  | lanes op form => op.machine (form.src1Bv T v ρ) (form.src2Bv T v ρ)
  | shift op width form =>
      op.machine width (form.src1Bv T v ρ) (VexShiftForm.bits width (form.count T v ρ))

/-- What the handler computes is what the machine does. -/
def Agrees : Prop :=
  match ins with
  | lanes op form => op.Agrees (form.dstBv T v ρ) (form.src1Bv T v ρ) (form.src2Bv T v ρ)
  | shift op width form => op.Agrees width (form.src1Bv T v ρ)
      (VexShiftForm.taken width (form.given T) % 2 ^ (width * 8))
      (VexShiftForm.bits width (form.count T v ρ))

/-- Some byte that the handler reads depends on the input. -/
def Depends : Prop :=
  ∃ o ∈ ins.read, ∃ k ∈ o.places T, Symbolic v k

end

end VexIns

namespace Process

open Handler Stateful

variable {Reg : Type} [DecidableEq Reg] {T : Process Reg} {σ : Session} {s : Shadow}
variable {v v₁ v' : ShadowMap Reg} {o : Operand Reg} {ρ input : Input} {ins : VexIns Reg}
variable {form : VexForm Reg} {op : VexOp}

/-! ### The destination -/

omit [DecidableEq Reg] in
/-- The bytes of an operand stand for those of `u`. -/
def Delivers (input : Input) (T : Process Reg) (v : ShadowMap Reg) (o : Operand Reg)
    (u : Input → BitVec (o.size T * 8)) (ρ : Input) : Prop :=
  ∀ i < o.size T, Stands input (v (o.place T i)) (fun ρ => Bytes.byte (u ρ).toNat i) ρ

/-- What an instruction does. If nothing that is read depends on the input then the bytes of the
process are taken, and else those that the handler computes. Other places are let go of if they
do not depend on the input. -/
structure VexDone (input : Input) (T : Process Reg) (ins : VexIns Reg) (v v' : ShadowMap Reg) :
    Prop where
  right : ∀ ρ, Delivers input T v' (.reg ins.dst) (ins.machine T v) ρ ↔
    (ins.Depends T v → ins.Agrees T v ρ) ∧
      (¬ ins.Depends T v → ins.machine T v ρ = ins.machine T v input)
  other : ∀ k, k ∉ (Operand.reg ins.dst).written T → (∀ o ∈ ins.fixed, k ∉ o.written T) →
    v' k = v k ∨ ¬ Symbolic v k ∧ v' k = none

omit [DecidableEq Reg] in
theorem Shows.delivers_iff {w : BitVec (o.size T * 8)} {u : Input → BitVec (o.size T * 8)}
    (h : T.Shows v o ρ w) : Delivers input T v o u ρ ↔ w = u ρ := by
  rw [← h.iff_eq]
  refine forall₂_congr fun i hi => ?_
  obtain ⟨e, he, -⟩ := h i hi
  rw [he]
  exact ⟨fun hval => ⟨e, rfl, hval⟩, fun ⟨e', he', hval⟩ => Option.some.inj he' ▸ hval⟩

omit [DecidableEq Reg] in
theorem delivers_iff_of_empty {u : Input → BitVec (o.size T * 8)}
    (h : ∀ k ∈ o.places T, v k = none) :
    Delivers input T v o u ρ ↔ u ρ = u input := by
  have hnone (i : Nat) (hi : i < o.size T) : v (o.place T i) = none :=
    h _ (Operand.mem_places_iff.2 ⟨i, hi, rfl⟩)
  constructor
  · intro h
    refine eq_of_bytes fun i hi => ?_
    have hi := h i hi
    rw [hnone i ‹_›] at hi
    exact hi
  · intro heq i hi
    rw [hnone i hi]
    exact congrArg (fun w => Bytes.byte w.toNat i) heq

omit [DecidableEq Reg] in
theorem VexDone.of_empty (hdep : ¬ ins.Depends T v)
    (hempty : ∀ k ∈ (Operand.reg ins.dst).places T, v' k = none)
    (hother : ∀ k, k ∉ (Operand.reg ins.dst).written T → v' k = v₁ k)
    (hv₁ : ∀ k, (∀ o ∈ ins.fixed, k ∉ o.written T) → v₁ k = v k ∨ ¬ Symbolic v k ∧ v₁ k = none) :
    VexDone input T ins v v' where
  right ρ := by
    rw [delivers_iff_of_empty hempty]
    exact ⟨fun h => ⟨fun h' => absurd h' hdep, fun _ => h⟩, fun h => h.2 hdep⟩
  other k hk hfixed := by
    rw [hother k hk]
    exact hv₁ k hfixed

omit [DecidableEq Reg] in
theorem VexDone.of_puts {u : Input → BitVec ((Operand.reg ins.dst).size T * 8)}
    (hdep : ins.Depends T v)
    (hputs : T.Puts v₁ v' (.reg ins.dst) u) (hu : ∀ ρ, u ρ = ins.machine T v ρ ↔ ins.Agrees T v ρ)
    (hv₁ : ∀ k, (∀ o ∈ ins.fixed, k ∉ o.written T) → v₁ k = v k ∨ ¬ Symbolic v k ∧ v₁ k = none) :
    VexDone input T ins v v' where
  right ρ := by
    rw [(hputs.shows ρ).delivers_iff, hu]
    exact ⟨fun h => ⟨fun _ => h, fun h' => absurd hdep h'⟩, fun h => h.1 hdep⟩
  other k hk hfixed := by
    rw [hputs.other k hk]
    exact hv₁ k hfixed

/-! ### Operands -/

section Handlers

variable (hP : T.pin.Documented) (hb : T.builder = chain) (hs : s.WellFormed)
  (hv : T.Consistent σ.input (T.peek s))

include hP hb hs hv in
/-- Two operands of the size of the destination. -/
theorem vexPair_fetches (pair : VectorLogicForm Reg) {n : Nat} (hn : 1 < n ∧ n ≤ 2 ^ 64)
    (hdst : pair.dst.size T = n) (hsrc : pair.src.size T = n) :
    Fetches σ T (pair.operands T) s [pair.dst, pair.src] fun x =>
      (Expresses (n * 8) (fun ρ => (pair.dst.bv T (T.peek s) ρ).setWidth _) x.1 ∧
        Expresses (n * 8) (fun ρ => (pair.src.bv T (T.peek s) ρ).setWidth _) x.2) ∧
          pair.Depends T (T.peek s) := by
  subst hdst
  refine (vectorLogic_fetches hP hb hs hv pair hn hsrc).mono fun x ⟨⟨hx, hy⟩, hdep⟩ =>
    ⟨⟨?_, hy⟩, hdep⟩
  exact hx.setWidth rfl

omit [DecidableEq Reg] in
include hb in
/-- The handlers with three operands. -/
theorem result_expresses (hop : op.Handled) (hthree : op.threeOperands = true) {dst : Reg}
    (hn : T.pin.regSize dst ∈ [16, 32]) {d a b : Input → BitVec (T.pin.regSize dst * 8)}
    {x : Expr × Expr}
    (ha : Expresses (T.pin.regSize dst * 8) a x.1) (hx : Expresses (T.pin.regSize dst * 8) b x.2) :
    Builds σ exactly (VexForm.result T dst op x)
      (Expresses (T.pin.regSize dst * 8) fun ρ => op.computed (d ρ) (a ρ) (b ρ)) := by
  have hsize : T.pin.regSize dst = 16 ∨ T.pin.regSize dst = 32 := by simpa using hn
  have hpos : 0 < T.pin.regSize dst * 8 := by omega
  have hw {w : Nat} (hmem : w ∈ [1, 2, 4, 8]) : 0 < w ∧ w * 8 ∣ T.pin.regSize dst * 8 := by
    rcases hsize with h | h <;> rw [h]
    · exact (by decide : ∀ w ∈ [1, 2, 4, 8], 0 < w ∧ w * 8 ∣ 16 * 8) w hmem
    · exact (by decide : ∀ w ∈ [1, 2, 4, 8], 0 < w ∧ w * 8 ∣ 32 * 8) w hmem
  have hmax {w : Nat} (hmem : w ∈ [1, 2, 4]) : w ∈ [1, 2, 4, 8] :=
    (by decide : ∀ w ∈ [1, 2, 4], w ∈ [1, 2, 4, 8]) w hmem
  have hmul {w : Nat} (hmem : w ∈ [2, 4]) : w ∈ [1, 2, 4, 8] :=
    (by decide : ∀ w ∈ [2, 4], w ∈ [1, 2, 4, 8]) w hmem
  have hpack {w : Nat} (hmem : w ∈ [1, 2]) : w ∈ [1, 2, 4, 8] :=
    (by decide : ∀ w ∈ [1, 2], w ∈ [1, 2, 4, 8]) w hmem
  cases op <;> simp only [VexForm.result, doParith, doPcmp, doPcmpxchg, doPmul, doPmulhw, doPmaddwd,
    doPshufb, doPack, hb]
  case vpor => exact ha.binary_builds (k := .or) nofun rfl hx
  case vpxor => exact ha.binary_builds (k := .xor) nofun rfl hx
  case vxorps => exact ha.binary_builds (k := .xor) nofun rfl hx
  case vpadd w => exact parithExpr_expresses (hw hop).1 (hw hop).2 hpos ha hx .add nofun rfl
  case vpsub w => exact parithExpr_expresses (hw hop).1 (hw hop).2 hpos ha hx .sub nofun rfl
  case vpcmpeq w => exact pcmpExpr_expresses (hw hop).1 (hw hop).2 hpos ha hx .equal
  case vpcmpgt w => exact pcmpExpr_expresses (hw hop).1 (hw hop).2 hpos ha hx .sgt
  case vpmaxs w => exact pcmpxchgExpr_expresses (hw (hmax hop)).1 (hw (hmax hop)).2 hpos ha hx _
  case vpmaxu w => exact pcmpxchgExpr_expresses (hw (hmax hop)).1 (hw (hmax hop)).2 hpos ha hx .ugt
  case vpmins w => exact pcmpxchgExpr_expresses (hw (hmax hop)).1 (hw (hmax hop)).2 hpos ha hx .slt
  case vpminu w => exact pcmpxchgExpr_expresses (hw (hmax hop)).1 (hw (hmax hop)).2 hpos ha hx .ult
  case vpmull w => exact pmulExpr_expresses (hw (hmul hop)).1 (hw (hmul hop)).2 hpos ha hx
  case vpmulhw => exact pmulhwExpr_expresses (by omega) (by omega) ha hx true
  case vpmulhuw => exact pmulhwExpr_expresses (by omega) (by omega) ha hx false
  case vpmaddwd => exact pmaddwdExpr_expresses (by omega) (by omega) ha hx
  case vpshufb => exact pshufbExpr_expresses hsize ha hx
  case vpackss w => exact packExpr_expresses (hw (hpack hop)).1 (hw (hpack hop)).2 hpos ha hx true
  case vpackus w => exact packExpr_expresses (hw (hpack hop)).1 (hw (hpack hop)).2 hpos ha hx false
  case vpand => cases hthree
  case vpunpckh w => cases hthree
  case vpunpckl w => cases hthree

/-! ### The handlers -/

include hP in
/-- The destination is let go of. -/
theorem clear_done (hdep : ¬ ins.Depends T v) (hdst : T.Tracked ins.dst)
    (hv₁ : ∀ k, (∀ o ∈ ins.fixed, k ∉ o.written T) →
      T.peek s k = v k ∨ ¬ Symbolic v k ∧ T.peek s k = none) :
    Achieves (body σ) exactly (T.clearExprFromReg ins.dst) s
      fun _ s' _ => VexDone input T ins v (T.peek s') := by
  refine ((clearExprFromReg_returns hdst).achieves (clearExprFromReg_cleared hP ins.dst)).mono ?_
  rintro _ s' _ ⟨_, _, hcleared, _⟩
  refine .of_empty hdep (fun k hk => hcleared.empty k ?_) (fun k hk => hcleared.same k ?_) hv₁
  · rw [Operand.mem_dropped_iff hP, Operand.written_eq]
    exact List.mem_append_left _ hk
  · rw [Operand.mem_dropped_iff hP]
    exact hk

include hP hb hs hv in
theorem threeOperands_done (hins : (VexIns.lanes op form).Handled T) (hready : form.Ready T)
    (hthree : op.threeOperands = true) :
    Achieves (body σ) exactly (form.handler T op) s fun _ s' _ =>
      VexDone σ.input T (.lanes op form) (T.peek s) (T.peek s') := by
  obtain ⟨hop, hn, hsrc1, hsrc2⟩ := hins
  have hsize : T.pin.regSize form.dst = 16 ∨ T.pin.regSize form.dst = 32 := by simpa using hn
  have hfits : 1 < T.pin.regSize form.dst ∧ T.pin.regSize form.dst ≤ 2 ^ 64 := by omega
  have hread : (VexIns.lanes op form).read = [.reg form.src1, form.src2] := if_pos hthree
  have hfetch : Fetches σ T (form.operands T) s [.reg form.src1, form.src2] fun x =>
      (Expresses (T.pin.regSize form.dst * 8) (form.src1Bv T (T.peek s)) x.1 ∧
        Expresses (T.pin.regSize form.dst * 8) (form.src2Bv T (T.peek s)) x.2) ∧
          (VexIns.lanes op form).Depends T (T.peek s) := by
    rw [VexIns.Depends, hread]
    cases form with
    | regReg dst src1 src2 =>
        exact vexPair_fetches hP hb hs hv (.regReg src1 src2) hfits hsrc1 hsrc2
    | regMem dst src1 m => exact vexPair_fetches hP hb hs hv (.regMem src1 m) hfits hsrc1 hsrc2
  have hreads : Returns (body σ) exactly (form.operands T) s := by
    cases form with
    | regReg dst src1 src2 => exact getExprFromRegReg_returns hP hb hs hready.2.1 hready.2.2
    | regMem dst src1 m =>
        have hpos : 0 < m.size := hfits.1.le.trans_eq hsrc2.symm
        exact getExprFromRegMem_returns hP hb hs hready.2.1 hready.2.2 hpos
  rw [VexForm.handler_eq hthree]
  refine computing_achieves hfetch hreads (fun s₁ h₁ hidle => ?_) fun s₁ x h₁ ⟨⟨ha, hx⟩, hdep⟩ => ?_
  · have hnot : ¬ (VexIns.lanes op form).Depends T (T.peek s) := by
      rw [VexIns.Depends, hread]
      rintro ⟨o, ho, k, hk, hsym⟩
      exact hidle.not_symbolic ho hk hsym
    exact clear_done hP hnot hready.tracked.1 fun k _ => h₁.fades k
  · refine Achieves.lift_bind (result_expresses (d := form.dstBv T (T.peek s)) hb hop
      hthree hn ha hx)
      fun res hres => ?_
    refine (set_achieves (o := .reg form.dst) hP hb hready.tracked.1 hfits.2 hres).mono
      fun _ s' _ ⟨_, hputs⟩ => ?_
    refine .of_puts hdep hputs (fun ρ => op.computed_eq_machine_iff hop ?_) fun k _ => h₁.fades k
    exact hsize.imp (congrArg (· * 8)) (congrArg (· * 8))

include hP hb hs hv in
/-- The handlers with two operands read the old destination and the first source. -/
theorem legacy_done (hins : (VexIns.lanes op form).Handled T) (hready : form.Ready T)
    (htwo : op.threeOperands = false)
    {result : Expr × Expr → Build Expr}
    (hres : ∀ x : Expr × Expr, Expresses (T.pin.regSize form.dst * 8)
      (form.dstBv T (T.peek s)) x.1 →
      Expresses (T.pin.regSize form.dst * 8) (form.src1Bv T (T.peek s)) x.2 →
        Builds σ exactly (result x) (Expresses (T.pin.regSize form.dst * 8) fun ρ =>
          op.computed (form.dstBv T (T.peek s) ρ) (form.src1Bv T (T.peek s) ρ)
            (form.src2Bv T (T.peek s) ρ))) :
    Achieves (body σ) exactly (T.legacy (T.getExprFromRegReg form.dst form.src1) form.dst result) s
      fun _ s' _ => VexDone σ.input T (.lanes op form) (T.peek s) (T.peek s') := by
  obtain ⟨hop, hn, hsrc1, _⟩ := hins
  have hsize : T.pin.regSize form.dst = 16 ∨ T.pin.regSize form.dst = 32 := by simpa using hn
  have hfits : 1 < T.pin.regSize form.dst ∧ T.pin.regSize form.dst ≤ 2 ^ 64 := by omega
  have hread : (VexIns.lanes op form).read = [.reg form.dst, .reg form.src1] :=
    if_neg (by rw [htwo]; exact Bool.false_ne_true)
  have hfetch : Fetches σ T (T.getExprFromRegReg form.dst form.src1) s
      [.reg form.dst, .reg form.src1]
      fun x => (Expresses (T.pin.regSize form.dst * 8) (form.dstBv T (T.peek s)) x.1 ∧
        Expresses (T.pin.regSize form.dst * 8) (form.src1Bv T (T.peek s)) x.2) ∧
          (VexIns.lanes op form).Depends T (T.peek s) := by
    rw [VexIns.Depends, hread]
    refine Fetches.mono (vexPair_fetches hP hb hs hv (.regReg form.dst form.src1) hfits rfl hsrc1)
      ?_
    exact fun x ⟨⟨hd, ha⟩, hdep⟩ => ⟨⟨hd.congr fun ρ => BitVec.setWidth_eq _, ha⟩, hdep⟩
  have hreads : Returns (body σ) exactly (T.getExprFromRegReg form.dst form.src1) s :=
    getExprFromRegReg_returns hP hb hs hready.tracked.1 hready.tracked.2
  refine computing_achieves hfetch hreads (fun s₁ h₁ hidle => ?_) fun s₁ x h₁ ⟨⟨hd, ha⟩, hdep⟩ => ?_
  · refine .ret (.of_empty ?_ (hidle.empty _ List.mem_cons_self) (fun _ _ => rfl)
      fun k _ => h₁.fades k)
    rw [VexIns.Depends, hread]
    rintro ⟨o, ho, k, hk, hsym⟩
    exact hidle.not_symbolic ho hk hsym
  · refine Achieves.lift_bind (hres x hd ha) fun res hres => ?_
    refine (set_achieves (o := .reg form.dst) hP hb hready.tracked.1 hfits.2 hres).mono
      fun _ s' _ ⟨_, hputs⟩ => ?_
    refine .of_puts hdep hputs (fun ρ => op.computed_eq_machine_iff hop ?_) fun k _ => h₁.fades k
    exact hsize.imp (congrArg (· * 8)) (congrArg (· * 8))

omit [DecidableEq Reg] in
include hb in
/-- Both halves are put together from the lanes of the operands. -/
theorem punpck_expresses {w off : Nat} (hw : w ∈ [1, 2, 4, 8]) {dst : Reg}
    (hn : T.pin.regSize dst ∈ [16, 32])
    (hoff : off ≤ T.pin.regSize dst / 2) {d a : Input → BitVec (T.pin.regSize dst * 8)}
    {x : Expr × Expr}
    (hd : Expresses (T.pin.regSize dst * 8) d x.1) (ha : Expresses (T.pin.regSize dst * 8) a x.2) :
    Builds σ exactly (T.builder.punpckExpr x.1 x.2 w (T.pin.regSize dst) off)
      (Expresses (T.pin.regSize dst * 8) fun ρ =>
        Bits.ofLanes (T.pin.regSize dst * 8) (interleaved (w * 8) (off * 8) (d ρ) (a ρ))) := by
  have hdvd : w * 2 ∣ T.pin.regSize dst :=
    (by decide : ∀ n ∈ [16, 32], ∀ w ∈ [1, 2, 4, 8], w * 2 ∣ n) _ hn w hw
  have hpos : 0 < w ∧ 0 < T.pin.regSize dst :=
    (by decide : ∀ n ∈ [16, 32], ∀ w ∈ [1, 2, 4, 8], 0 < w ∧ 0 < n) _ hn w hw
  rw [hb]
  refine punpckExpr_expresses hpos.1 hdvd hpos.2 (fun i hi => ?_) hd ha
  obtain ⟨k, hk⟩ := hdvd
  rw [hk, Nat.mul_div_cancel_left k (by omega)] at hi
  have hhalf : T.pin.regSize dst = k * w * 2 := by
    rw [hk]
    ring
  have hlane : (i + 1) * w ≤ k * w := Nat.mul_le_mul_right w hi
  rw [Nat.succ_mul] at hlane
  omega

include hP hb hs hv in
theorem punpck_done (hins : (VexIns.lanes op form).Handled T) (hready : form.Ready T) {w : Nat}
    (hop : op = .vpunpckh w ∨ op = .vpunpckl w) :
    Achieves (body σ) exactly (form.handler T op) s fun _ s' _ =>
      VexDone σ.input T (.lanes op form) (T.peek s) (T.peek s') := by
  obtain ⟨hhandled, hn, -⟩ := id hins
  rcases hop with rfl | rfl
  · have hhalf : T.pin.regSize form.dst / 2 * 8 = T.pin.regSize form.dst * 8 / 2 := by
      have := (by decide : ∀ n ∈ [16, 32], n / 2 * 8 = n * 8 / 2) _ hn
      exact this
    have h := legacy_done hP hb hs hv hins hready rfl fun x hd ha =>
      (hhalf ▸ punpck_expresses hb hhandled hn (Nat.le_refl _) hd ha :)
    cases form <;> exact h
  · have h := legacy_done hP hb hs hv hins hready rfl fun x hd ha =>
      punpck_expresses hb hhandled hn (Nat.zero_le _) hd ha
    cases form <;> exact h

include hP hb hs hv in
theorem vpand_done (hins : (VexIns.lanes .vpand form).Handled T) (hready : form.Ready T) :
    Achieves (body σ) exactly (form.handler T .vpand) s fun _ s' _ =>
      VexDone σ.input T (.lanes .vpand form) (T.peek s) (T.peek s') := by
  obtain ⟨-, hn, hsrc1, -⟩ := hins
  have hsize : 1 < T.pin.regSize form.dst ∧ T.pin.regSize form.dst ≤ 2 ^ 64 :=
    (by decide : ∀ n ∈ [16, 32], 1 < n ∧ n ≤ 2 ^ 64) _ hn
  let pair : VectorLogicForm Reg := .regReg form.dst form.src1
  have h : Achieves (body σ) exactly (pair.handler T .pand) s fun _ s' _ =>
      VexDone σ.input T (.lanes .vpand form) (T.peek s) (T.peek s') := by
    refine vectorLogic_achieves hP hb hs hv pair hsize hsrc1 hready.tracked .pand
      (fun s' hidle _ => ?_)
      fun s' v₁ _ hdep hfades hputs _ _ _ => ?_
    · refine .of_empty ?_ (hidle.empty _ List.mem_cons_self) (fun _ _ => rfl)
        fun k _ => hidle.fades k
      rintro ⟨o, ho, k, hk, hsym⟩
      exact hidle.not_symbolic ho hk hsym
    · exact .of_puts hdep hputs (fun ρ => Iff.rfl) fun k _ => hfades k
  cases form <;> exact h

include hP hb hs hv in
theorem vexLanes_done (hins : (VexIns.lanes op form).Handled T) (hready : form.Ready T) :
    Achieves (body σ) exactly (form.handler T op) s fun _ s' _ =>
      VexDone σ.input T (.lanes op form) (T.peek s) (T.peek s') := by
  cases hop : op.threeOperands with
  | true => exact threeOperands_done hP hb hs hv hins hready hop
  | false =>
      cases op with
      | vpand => exact vpand_done hP hb hs hv hins hready
      | vpunpckh w => exact punpck_done hP hb hs hv hins hready (.inl rfl)
      | vpunpckl w => exact punpck_done hP hb hs hv hins hready (.inr rfl)
      | _ => cases hop

/-! ### Shifts -/

variable {shift : VexShift} {width : Nat} {src1 : Reg}

omit [DecidableEq Reg] in
include hb in
theorem pshift_expresses (hshift : shift.Handled width) {dst : Reg}
    (hn : T.pin.regSize dst ∈ [16, 32])
    (count : Nat) {a : Input → BitVec (T.pin.regSize dst * 8)} {e : Expr}
    (ha : Expresses (T.pin.regSize dst * 8) a e) :
    Builds σ exactly (T.doPshift dst shift.kind count width e)
      (Expresses (T.pin.regSize dst * 8) fun ρ =>
        shift.computed width (a ρ) (VexShiftForm.taken width count)) := by
  have hdvd : 0 < width ∧ width ∣ T.pin.regSize dst ∧ 0 < T.pin.regSize dst :=
    (by decide : ∀ n ∈ [16, 32], ∀ w ∈ [2, 4, 8, 16], 0 < w ∧ w ∣ n ∧ 0 < n) _ hn _ hshift.mem
  have hkind : shift.kind ≠ .sdiv ∧ shift.kind.isLogical = false := by
    cases shift <;> exact ⟨nofun, rfl⟩
  rw [doPshift, hb]
  exact pshiftExpr_expresses hkind.1 hkind.2 hdvd.1 hdvd.2.1 hdvd.2.2 count ha

include hP hb in
/-- What is left to do when the first source has been read and the count has been fixed. -/
theorem shift_finish {form : VexShiftForm Reg} (hins : (VexIns.shift shift width form).Handled T)
    (hdst : T.Tracked form.dst) {x : Option Expr} {s₂ : Shadow}
    (hx : T.Fetched v (.reg form.src1) x)
    (hdep : x ≠ none → ∃ k ∈ (Operand.reg form.src1).places T, Symbolic v k)
    (hv₂ : ∀ k, (∀ o ∈ form.fixed, k ∉ o.written T) →
      T.peek s₂ k = v k ∨ ¬ Symbolic v k ∧ T.peek s₂ k = none) :
    Achieves (body σ) exactly
      (match x with
        | none => T.clearExprFromReg form.dst
        | some eSrc1 => do
            let res ← T.doPshift form.dst shift.kind (form.given T) width eSrc1
            T.setExprToReg form.dst (some res))
      s₂ fun _ s' _ => VexDone σ.input T (.shift shift width form) v (T.peek s') := by
  obtain ⟨hshift, hn, hsrc1⟩ := hins
  cases x with
  | none =>
      have hnot : ¬ (VexIns.shift shift width form).Depends T v := by
        rintro ⟨o, ho, k, hk, hsym⟩
        obtain rfl := List.mem_singleton.1 ho
        exact hx k hk hsym
      exact clear_done hP hnot hdst hv₂
  | some e =>
      have hdepends : (VexIns.shift shift width form).Depends T v :=
        ⟨_, List.mem_singleton_self _, hdep nofun⟩
      have ha : Expresses (T.pin.regSize form.dst * 8) (form.src1Bv T v) e :=
        (hx : Expresses _ _ e).setWidth (congrArg (· * 8) hsrc1)
      have hsize : T.pin.regSize form.dst ≤ 2 ^ 64 := (by decide : ∀ n ∈ [16, 32], n ≤ 2 ^ 64) _ hn
      have hw : 0 < width ∧ width * 8 ∣ T.pin.regSize form.dst * 8 :=
        (by decide : ∀ n ∈ [16, 32], ∀ w ∈ [2, 4, 8, 16], 0 < w ∧ w * 8 ∣ n * 8) _ hn _ hshift.mem
      refine Achieves.lift_bind (pshift_expresses hb hshift hn (form.given T) ha) fun res hres => ?_
      refine (set_achieves (o := .reg form.dst) hP hb hdst hsize hres).mono
        fun _ s' _ ⟨_, hputs⟩ => ?_
      exact .of_puts hdepends hputs (fun ρ => shift.computed_eq_machine_iff hw.1 hw.2) hv₂

include hP hb hs hv in
theorem getSrc1_achieves {form : VexShiftForm Reg}
    (hins : (VexIns.shift shift width form).Handled T)
    (hready : form.Ready T) : Achieves (body σ) exactly (T.getExprFromReg form.src1) s fun x s₁ _ =>
      T.Aged s s₁ ∧ T.Fetched (T.peek s) (.reg form.src1) x ∧
        (x ≠ none → ∃ k ∈ (Operand.reg form.src1).places T, Symbolic (T.peek s) k) := by
  have hone : (Operand.reg form.src1).size T ≠ 1 := by
    have hn : T.pin.regSize form.dst ≠ 1 := (by decide : ∀ n ∈ [16, 32], n ≠ 1) _ hins.2.1
    exact fun h => hn (hins.2.2.symm.trans h)
  refine ((getExprFromReg_returns hP hb hs hready.src1).achieves ((get_gets hP hb (.reg form.src1) s
    hs hv).and (get_attends (σ := σ) hP hb (o := .reg form.src1) hone s hs))).mono ?_
  exact fun x s₁ _ ⟨⟨h₁, hx, _⟩, hdep⟩ => ⟨h₁, hx, hdep⟩

include hP hb hs hv in
/-- The count is fixed between the first source and the destination. -/
theorem shift_done {form : VexShiftForm Reg} (hins : (VexIns.shift shift width form).Handled T)
    (hdst : T.Tracked form.dst) (hready : form.Ready T)
    (fix : Handler Reg Unit) (hfix : ∀ s₁ : Shadow, s₁.WellFormed → Achieves (body σ) exactly fix s₁
      fun _ s₂ _ => ∀ k, (∀ o ∈ form.fixed, k ∉ o.written T) →
        T.peek s₂ k = T.peek s₁ k ∨ ¬ Symbolic (T.peek s₁) k ∧ T.peek s₂ k = none) :
    Achieves (body σ) exactly (do
      let eSrc1 ← T.getExprFromReg form.src1
      fix
      T.vex (return eSrc1) form.dst (T.doPshift form.dst shift.kind (form.given T) width)) s
      fun _ s' _ => VexDone σ.input T (.shift shift width form) (T.peek s) (T.peek s') := by
  refine (getSrc1_achieves hP hb hs hv hins hready).bind fun x s₁ _ ⟨h₁, hx, hdep⟩ => ?_
  refine (hfix s₁ h₁.wellFormed).bind fun _ s₂ _ hfixed => ?_
  have hreturn : Achieves (body σ) exactly (return x : Handler Reg _) s₂ fun y s' _ =>
      y = x ∧ s' = s₂ :=
    .ret ⟨rfl, rfl⟩
  refine hreturn.bind fun y s₃ _ ⟨hy, hs₃⟩ => ?_
  rw [hy, hs₃]
  have hv₂ (k : Place Reg) (hk : ∀ o ∈ form.fixed, k ∉ o.written T) :
      T.peek s₂ k = T.peek s k ∨ ¬ Symbolic (T.peek s) k ∧ T.peek s₂ k = none := by
    rcases hfixed k hk with hsame | ⟨hnot, hnone⟩
    · rw [hsame]
      exact h₁.fades k
    · exact .inr ⟨mt h₁.fades.symbolic_iff.2 hnot, hnone⟩
  have h := shift_finish (σ := σ) hP hb hins hdst hx hdep hv₂
  cases x <;> exact h

include hP hb hs hv in
theorem vexShift_done {form : VexShiftForm Reg} (hins : (VexIns.shift shift width form).Handled T)
    (hdst : T.Tracked form.dst) (hready : form.Ready T) :
    Achieves (body σ) exactly (form.handler T shift width) s fun _ s' _ =>
      VexDone σ.input T (.shift shift width form) (T.peek s) (T.peek s') := by
  cases form with
  | regReg dst src1 src2 =>
      refine shift_done hP hb hs hv hins hdst hready (T.concretizeReg src2) fun s₁ hs₁ => ?_
      refine ((concretizeReg_returns hP hb hs₁ hready.2).achieves
        (concretizeReg_concretized hP hb hs₁ src2)).mono fun _ s₂ _ h k hk => ?_
      have hnot := hk _ (List.mem_singleton_self _)
      by_cases hnull : T.ReadsNull (T.peek s₁) (.reg src2)
      · refine .inl ((h.null hnull).2.same k fun hmem => hnot ?_)
        rw [Operand.written_eq]
        exact List.mem_append_left _ hmem
      · exact .inl ((h.equation hnull).2.same k (mt (Operand.mem_dropped_iff hP _ k).1 hnot))
  | regMem dst src1 m =>
      refine shift_done hP hb hs hv hins hdst hready (T.makeAddrConcrete m) fun s₁ hs₁ => ?_
      exact ((makeAddrConcrete_returns hP hb hs₁ hready.2).achieves
        (makeAddrConcrete_aged hP hb hs₁ m)).mono fun _ s₂ _ h k _ => h.fades k
  | regImm dst src1 imm =>
      refine (getSrc1_achieves hP hb hs hv hins hready).bind fun x s₁ _ ⟨h₁, hx, hdep⟩ => ?_
      have h := shift_finish (σ := σ) hP hb hins hdst hx hdep fun k _ => h₁.fades k
      cases x <;> exact h

end Handlers

open X86Reg (process shadow)

/-- `VPADDD XMM0, XMM0, XMM1` -/
def vpadddXmm : VexIns X86Reg :=
  .lanes (.vpadd 4) (.regReg .xmm0 .xmm0 .xmm1)

/-- `VPAND XMM0, XMM1, XMM1` -/
def vpandXmm : VexIns X86Reg :=
  .lanes .vpand (.regReg .xmm0 .xmm1 .xmm1)

end Process

end Qsym
