import Qsym.Flags.Architecture
import Qsym.Instrument.Exchange
import Qsym.Instrument.Integer

/-!
# Qsym.Concolic.Machine

The **processor** that the tool runs beside, for a core of x86: moves, extensions, `LEA`, the
arithmetic and logical instructions on two operands, and the conditional jumps, each with the
handler that `analyzeInstruction` has inserted before it.

A state is the bytes at all places and the flags; the instruction pointer is a register. The
auxiliary flag is left out, and so are operands relative to the instruction pointer.
-/

namespace Qsym

open Procedure X86

/-- By this membership in a list of places is decided. -/
theorem Place.lawfulBEq {Reg : Type} [DecidableEq Reg] : LawfulBEq (Place Reg) :=
  inferInstance

attribute [local instance] Place.lawfulBEq

/-- The bytes of the full registers and of the memory, and the flags. -/
structure Machine (Reg : Type) where
  bytes : Place Reg → BitVec 8
  flags : Eflag → Bool

/-- A memory operand: how its address is made up, and its size. -/
structure MemRef (Reg : Type) where
  base : Reg
  index : Reg
  disp : Addr
  scale : Nat
  size : Nat

/-- Where a result goes. -/
inductive Location (Reg : Type)
  | reg (r : Reg)
  | mem (m : MemRef Reg)

/-- Where an operand comes from. -/
inductive Source (Reg : Type)
  | loc (l : Location Reg)
  | imm (v : Addr)

/-- The arithmetic and logical instructions on two operands. -/
inductive Alu
  | add | sub | cmp | and | test | or | xor
  deriving DecidableEq, Repr

namespace Alu

/-- The kind that is passed to `analyzeBinary`. -/
def kind : Alu → BinaryKind
  | add => .add
  | sub | cmp => .sub
  | and | test => .and
  | or => .or
  | xor => .xor

/-- The result is written. -/
def write : Alu → Bool
  | cmp | test => false
  | _ => true

/-- What decides the flags. -/
def operation (op : Alu) {n : Nat} (d s : BitVec n) : Operation :=
  match op with
  | add => .add n d s
  | sub | cmp => .sub n d s
  | op => .logic n (op.kind.apply d s)

/-- Every flag that a jump looks at is defined. -/
theorem flag_isSome (op : Alu) {n : Nat} (d s : BitVec n) {f : Eflag} (hf : f ≠ .af) :
    ((op.operation d s).flag f).isSome = true := by
  cases op <;> cases f <;> first | rfl | exact absurd rfl hf

end Alu

inductive Instruction (Reg : Type)
  | mov (dst : Location Reg) (src : Source Reg)
  /-- `MOVZX` and `MOVSX` -/
  | movx (kind : ExtKind) (dst : Reg) (src : Location Reg)
  | lea (dst : Reg) (m : MemRef Reg)
  | alu (op : Alu) (dst : Location Reg) (src : Source Reg)
  | jcc (kind : JccKind) (inv : Bool) (target : Addr)

namespace Machine

variable {Reg : Type} [DecidableEq Reg] (T : Process Reg) (M : Machine Reg)

omit [DecidableEq Reg] in
/-- The value of an operand. -/
def read (o : Operand Reg) : BitVec (o.size T * 8) :=
  BitVec.ofNat _ (Bytes.littleEndian ((o.places T).map fun k => (M.bytes k).toNat))

/-- An operand is written. A 32-bit register is extended with zeros. -/
def write (o : Operand Reg) (w : BitVec (o.size T * 8)) : Machine Reg :=
  { M with
    bytes := fun k =>
      if k ∈ o.places T then BitVec.ofNat 8 (Bytes.byte w.toNat ((o.places T).idxOf k))
      else if k ∈ o.upper T then 0
      else M.bytes k }

/-- The instruction pointer. -/
def pc : Addr :=
  (M.read T (.reg T.pin.regInstPtr)).setWidth 64

def jump (pc : Addr) : Machine Reg :=
  M.write T (.reg T.pin.regInstPtr) (pc.setWidth _)

/-- A register of an address, or zero. -/
def addrReg (r : Reg) : Addr :=
  if r ≠ T.pin.regInvalid then (M.read T (.reg r)).setWidth 64 else 0

/-- An arithmetic or logical instruction on an operand, with the value `w` of the other one. -/
def alu (op : Alu) (o : Operand Reg) (w : BitVec (o.size T * 8)) : Machine Reg :=
  let d := M.read T o
  let written := if op.write then M.write T o (op.kind.apply d w) else M
  { written with flags := fun f => ((op.operation d w).flag f).getD (M.flags f) }

omit [DecidableEq Reg] in
/-- Whether a jump is taken. -/
def taken (kind : JccKind) (inv : Bool) : Bool :=
  (kind.holds fun f => some (M.flags f)).getD false != inv

end Machine

namespace MemRef

variable {Reg : Type} [DecidableEq Reg] (T : Process Reg) (M : Machine Reg) (m : MemRef Reg)

def address : Addr :=
  M.addrReg T m.base + M.addrReg T m.index * BitVec.ofNat 64 m.scale + m.disp

/-- What the handlers are passed. -/
def arg : MemArg Reg where
  base := m.base
  index := m.index
  addr := m.address T M
  size := m.size
  disp := m.disp
  scale := m.scale

end MemRef

namespace Location

variable {Reg : Type} [DecidableEq Reg] (T : Process Reg) (M : Machine Reg)

def operand : Location Reg → Operand Reg
  | reg r => .reg r
  | mem m => .mem (m.address T M) m.size

omit [DecidableEq Reg] in
def size : Location Reg → Nat
  | reg r => T.pin.regSize r
  | mem m => m.size

end Location

/-- The value of a source, at the width of the destination. -/
def Source.value {Reg : Type} [DecidableEq Reg] (T : Process Reg) (M : Machine Reg) (n : Nat) :
    Source Reg → BitVec n
  | loc l => (M.read T (l.operand T M)).setWidth n
  | imm v => v.setWidth n

/-- The process when an instruction is about to run. -/
def Process.running {Reg : Type} (T : Process Reg) (M : Machine Reg) : Process Reg :=
  { T with context := fun f i => M.bytes (.reg f i), memory := fun a => M.bytes (.mem a) }

/-- What a run shows at an instruction: the addresses of the instruction and of its memory operand,
and the direction of a jump. -/
structure Event where
  pc : Addr
  address : Option Addr
  taken : Option Bool
  deriving DecidableEq, Repr

namespace Instruction

/-- The operand in memory that is read or written. -/
def memRef {Reg : Type} : Instruction Reg → Option (MemRef Reg)
  | mov (.mem m) _ | mov _ (.loc (.mem m)) => some m
  | movx _ _ (.mem m) => some m
  | alu _ (.mem m) _ | alu _ _ (.loc (.mem m)) => some m
  | _ => none

variable {Reg : Type} [DecidableEq Reg] (T : Process Reg) (M : Machine Reg)

omit [DecidableEq Reg] in
/-- Whether the instruction jumps. -/
def direction : Instruction Reg → Option Bool
  | jcc kind inv _ => some (M.taken kind inv)
  | _ => none

def event (i : Instruction Reg) : Event where
  pc := M.pc T
  address := i.memRef.map fun m => m.address T M
  taken := i.direction M

/-- What the instruction does to the bytes and to the flags. -/
def effect : Instruction Reg → Machine Reg
  | mov dst src => M.write T (dst.operand T M) (src.value T M _)
  | movx kind dst src => M.write T (.reg dst) (kind.apply _ (M.read T (src.operand T M)))
  | lea dst m => M.write T (.reg dst) ((m.address T M).setWidth _)
  | alu op dst src => M.alu T op (dst.operand T M) (src.value T M _)
  | jcc _ _ _ => M

omit [DecidableEq Reg] in
/-- The address of the next instruction, where `next` is the one after this. -/
def goesTo (next : Addr) : Instruction Reg → Addr
  | jcc kind inv target => if M.taken kind inv then target else next
  | _ => next

def exec (next : Addr) (i : Instruction Reg) : Machine Reg :=
  (i.effect T M).jump T (i.goesTo M next)

/-- The handler before the instruction. There are no instructions from memory to memory, and no
extension of an immediate. -/
def handler : Instruction Reg → Handler Reg Unit
  | mov (.reg dst) (.loc (.reg src)) => (T.running M).instrumentMovRegReg dst src
  | mov (.reg dst) (.imm v) => (T.running M).instrumentMovRegImm dst v
  | mov (.reg dst) (.loc (.mem m)) => (T.running M).instrumentMovRegMem dst (m.arg T M)
  | mov (.mem m) (.loc (.reg src)) => (T.running M).instrumentMovMemReg (m.arg T M) src
  | mov (.mem m) (.imm v) => (T.running M).instrumentMovMemImm (m.arg T M) v
  | mov (.mem _) (.loc (.mem _)) => Stateful.stop
  | movx .sext dst (.reg src) => (T.running M).instrumentMovsxRegReg dst src
  | movx .sext dst (.mem m) => (T.running M).instrumentMovsxRegMem dst (m.arg T M)
  | movx .zext dst (.reg src) => (T.running M).instrumentMovzxRegReg dst src
  | movx .zext dst (.mem m) => (T.running M).instrumentMovzxRegMem dst (m.arg T M)
  | lea dst m => (T.running M).instrumentLeaRegMem dst m.base m.index m.disp m.scale
  | alu op (.reg dst) (.loc (.reg src)) =>
      (T.running M).instrumentBinaryRegReg dst src op.kind op.write
  | alu op (.reg dst) (.imm v) => (T.running M).instrumentBinaryRegImm dst v op.kind op.write
  | alu op (.reg dst) (.loc (.mem m)) =>
      (T.running M).instrumentBinaryRegMem dst (m.arg T M) op.kind op.write
  | alu op (.mem m) (.loc (.reg src)) =>
      (T.running M).instrumentBinaryMemReg (m.arg T M) src op.kind op.write
  | alu op (.mem m) (.imm v) => (T.running M).instrumentBinaryMemImm (m.arg T M) v op.kind op.write
  | alu _ (.mem _) (.loc (.mem _)) => Stateful.stop
  | jcc kind inv target => (T.running M).instrumentJcc (M.taken kind inv) target kind inv

end Instruction

/-! ### Encodings -/

section Fits

variable {Reg : Type} (T : Process Reg)

/-- The instruction pointer is a full register of 64 bits. -/
structure Registers.Points (P : Registers Reg) : Prop where
  full : P.regFullRegName P.regInstPtr = P.regInstPtr
  size : P.regSize P.regInstPtr = 8

/-- The registers of an address have 64 bits. -/
def MemRef.Fits (m : MemRef Reg) : Prop :=
  ∀ r ∈ [m.base, m.index], r ≠ T.pin.regInvalid →
    T.pin.regSize r = 8 ∧ T.pin.regFullRegName r ≠ T.pin.regInstPtr

/-- A general register or memory. -/
def Location.Fits (l : Location Reg) : Prop :=
  l.size T ∈ [1, 2, 4, 8] ∧ match l with
    | .reg r => T.pin.regFullRegName r ≠ T.pin.regInstPtr
    | .mem m => m.Fits T

def Source.Fits (size : Nat) : Source Reg → Prop
  | .loc l => l.Fits T ∧ l.size T = size
  | .imm _ => True

/-- The operands are ones that there are encodings for. -/
def Instruction.Fits : Instruction Reg → Prop
  | .mov dst src | .alu _ dst src => dst.Fits T ∧ src.Fits T (dst.size T)
  | .movx _ dst src => (Location.reg dst).Fits T ∧ src.Fits T ∧ src.size T ≤ T.pin.regSize dst
  | .lea dst m => (Location.reg dst).Fits T ∧ T.pin.regSize dst ≠ 1 ∧ m.Fits T
  | .jcc _ _ _ => True

end Fits

/-! ### Programs -/

/-- What is at an address: an instruction, and the address after it. -/
abbrev Code (Reg : Type) := Addr → Option (Instruction Reg × Addr)

namespace Machine

variable {Reg : Type} [DecidableEq Reg] (T : Process Reg) (code : Code Reg)

/-- `n` steps, and what they show. -/
def run : Nat → Machine Reg → Option (List Event × Machine Reg)
  | 0, M => some ([], M)
  | n + 1, M => do
      let (i, next) ← code (M.pc T)
      let (events, M') ← run n (i.exec T M next)
      return (i.event T M :: events, M')

/-! ### Reading and writing -/

variable {T} {M : Machine Reg} {o : Operand Reg} {w : BitVec (o.size T * 8)}
  {k : Place Reg} {i : Nat}

omit [DecidableEq Reg] in
theorem toNat_read (M : Machine Reg) (o : Operand Reg) : (M.read T o).toNat =
    Bytes.littleEndian ((o.places T).map fun k => (M.bytes k).toNat) % 2 ^ (o.size T * 8) :=
  BitVec.toNat_ofNat _ _

omit [DecidableEq Reg] in
theorem read_congr {M' : Machine Reg} (h : ∀ k ∈ o.places T, M.bytes k = M'.bytes k) :
    M.read T o = M'.read T o := by
  unfold read
  rw [List.map_congr_left fun k hk => by rw [h k hk]]

theorem write_place (ho : o.size T ≤ 2 ^ 64) (hi : i < o.size T) :
    ((M.write T o w).bytes (o.place T i)).toNat = Bytes.byte w.toNat i := by
  have hmem : o.place T i ∈ o.places T := Operand.mem_places_iff.2 ⟨i, hi, rfl⟩
  have hindex : (o.places T).idxOf (o.place T i) = i := by
    rw [Operand.places_eq]
    have hnodup : ((List.range (o.size T)).map (o.place T)).Nodup := by
      refine List.Nodup.map_on (fun i hi j hj h => ?_) List.nodup_range
      exact Operand.place_inj ho (List.mem_range.1 hi) (List.mem_range.1 hj) h
    have hlength : i < ((List.range (o.size T)).map (o.place T)).length := by simpa using hi
    have hget : ((List.range (o.size T)).map (o.place T))[i] = o.place T i := by simp
    rw [← hget]
    exact hnodup.idxOf_getElem i hlength
  simp only [write, if_pos hmem, hindex, BitVec.toNat_ofNat]
  exact Nat.mod_eq_of_lt (Nat.mod_lt _ (by decide))

theorem write_upper (hP : T.pin.Documented) (hk : k ∈ o.upper T) : (M.write T o w).bytes k = 0 := by
  have hnot : k ∉ o.places T := by
    intro hmem
    obtain ⟨i, hi, rfl⟩ := Operand.mem_places_iff.1 hmem
    exact Operand.place_notMem_upper hP rfl hi hk
  simp only [write, if_neg hnot, if_pos hk]

theorem write_other (hk : k ∉ o.written T) : (M.write T o w).bytes k = M.bytes k := by
  rw [Operand.written_eq, List.mem_append, not_or] at hk
  simp only [write, if_neg hk.1, if_neg hk.2]

end Machine

end Qsym
