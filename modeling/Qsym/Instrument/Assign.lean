import Qsym.Instrument.Source

/-!
# Qsym.Instrument.Assign

Instructions that **come out right for every input**: the sign extensions of the accumulator,
`BSWAP`, `INC`, `DEC` and `VINSERTI128`. The destination is assigned the value of the machine,
and of the other places none that depends on the input is lost (`Assigns`).
-/

namespace X86

open Qsym Bits

variable {m n : Nat}

/-- `CWD`, `CDQ` and `CQO`: the sign in every bit. -/
def signs (n : Nat) (a : BitVec m) : BitVec n :=
  if a.msb then BitVec.allOnes n else 0

/-- `BSWAP` -/
def bswap (d : BitVec n) : BitVec n :=
  ofLanes n fun i => lane 8 d (n / 8 - 1 - i)

example : bswap 0x01020304#32 = 0x04030201#32 := by decide

/-- `VINSERTI128` -/
def insert128 (imm : Addr) (a : BitVec n) (b : BitVec 128) : BitVec n :=
  ofLanes n fun i => if i = imm.toNat % 2 then b else lane 128 a i

theorem signs_eq_extract (a : BitVec m) : (a.signExtend (m * 2)).extractLsb' m m = signs m a := by
  apply BitVec.eq_of_getLsbD_eq
  intro i hi
  rw [BitVec.getLsbD_extractLsb', BitVec.getLsbD_signExtend, if_neg (by omega), signs]
  cases a.msb with
  | true =>
      have hlt : m + i < m * 2 := by omega
      simp [hi, hlt]
  | false => simp

theorem lane_self (b : BitVec n) : lane n b 0 = b := by
  rw [lane, Nat.zero_mul, BitVec.extractLsb'_eq_self]

theorem insert128_low {imm : Addr} (h : imm.toNat % 2 = 0) (a : BitVec 256) (b : BitVec 128) :
    a.extractLsb' 128 128 ++ b = insert128 imm a b := by
  refine ((ofLanes_eq_iff (by decide) (by decide)).2 fun i hi => ?_).symm
  rw [lane_append (by decide), h]
  obtain rfl | rfl : i = 0 ∨ i = 1 := by omega
  · exact (lane_self b).symm
  · exact (lane_self _).symm

theorem insert128_high {imm : Addr} (h : imm.toNat % 2 = 1) (a : BitVec 256) (b : BitVec 128) :
    b ++ a.extractLsb' 0 128 = insert128 imm a b := by
  refine ((ofLanes_eq_iff (by decide) (by decide)).2 fun i hi => ?_).symm
  rw [lane_append (by decide), h]
  obtain rfl | rfl : i = 0 ∨ i = 1 := by omega
  · exact (lane_self _).symm
  · exact (lane_self b).symm

end X86

namespace Qsym

open Procedure X86 Bits
open SymbolicExprBuilder (chain)

namespace ExprBuilder

variable {σ : Session} {n : Nat} {d : Input → BitVec n} {e : Expr}

/-! ### What is built -/

theorem createBytes_lanes {f : Nat → Input → BitVec 8} {g : Nat → Nat} (he : Expresses n d e)
    (is : List Nat) (hlt : ∀ i ∈ is, i < n / 8)
    (hf : ∀ i ∈ is, ∀ ρ, f (g i) ρ = lane 8 (d ρ) i) :
    Builds σ exactly (chain.createBytes e is) (Lanes 8 f (is.map g)) := by
  induction is with
  | nil => exact .ret .nil
  | cons i is ih =>
      have hi := lane_expresses (σ := σ) (w := 8) (by decide) he (hlt i List.mem_cons_self)
      refine Total.bind hi fun x hx => ?_
      refine Total.bind (ih (fun j hj => hlt j (List.mem_cons_of_mem i hj))
        fun j hj => hf j (List.mem_cons_of_mem i hj)) fun xs hxs => ?_
      exact .ret (.cons (hx.congr fun ρ => (hf i List.mem_cons_self ρ).symm) hxs)

/-- The lowest byte comes first, so it becomes the highest. -/
theorem swapBytes_builds (hn : 8 ∣ n) (he : Expresses n d e) :
    Builds σ exactly (chain.swapBytes e) (Expresses n fun ρ => bswap (d ρ)) := by
  have hpos : 0 < n / 8 := Nat.div_pos (Nat.le_of_dvd he.isBV.pos hn) (by decide)
  have hbytes := createBytes_lanes (σ := σ) (f := fun i ρ => lane 8 (d ρ) (n / 8 - 1 - i))
    (g := fun i => n / 8 - 1 - i) he (List.range (n / 8)) (fun i hi => List.mem_range.1 hi)
    fun i hi ρ => by
      have hlt := List.mem_range.1 hi
      rw [Nat.sub_sub_self (by omega)]
  have hrev : (List.range (n / 8)).map (fun i => n / 8 - 1 - i) = (List.range (n / 8)).reverse := by
    rw [List.range_eq_range', List.reverse_range', List.range_eq_range']
    simp
  unfold swapBytes
  rw [he.bits]
  refine Total.bind hbytes fun es hes => ?_
  exact createConcatAll_lanes hpos (hrev ▸ hes) (Nat.div_mul_cancel hn)

theorem doVinsert128i_builds {a : Input → BitVec 256} {b : Input → BitVec 128} {src1 src2 : Expr}
    (ha : Expresses 256 a src1) (hb : Expresses 128 b src2) (imm : Addr) :
    Builds σ exactly (chain.doVinsert128i src1 src2 imm)
      (Expresses 256 fun ρ => insert128 imm (a ρ) (b ρ)) := by
  have hbits : src1.bits = 256 ∧ src2.bits = 128 := ⟨ha.bits, hb.bits⟩
  have himm : imm &&& 1 = 0 ↔ imm.toNat % 2 = 0 := by
    rw [← BitVec.toNat_inj, BitVec.toNat_and]
    exact Eq.congr_left (Nat.and_two_pow_sub_one_eq_mod imm.toNat 1)
  unfold doVinsert128i
  rw [if_pos hbits]
  split
  next h0 =>
      refine Total.bind (ha.extract_builds (i := 128) (by decide) (by decide)) fun high hhigh => ?_
      refine (hhigh.concat_builds hb).mono fun e he => he.congr fun ρ => ?_
      exact insert128_low (himm.1 h0) (a ρ) (b ρ)
  next h1 =>
      have hodd : imm.toNat % 2 = 1 := by
        rw [himm] at h1
        omega
      refine Total.bind (ha.extract_builds (i := 0) (by decide) (by decide)) fun low hlow => ?_
      refine (hb.concat_builds hlow).mono fun e he => he.congr fun ρ => ?_
      exact insert128_high hodd (a ρ) (b ρ)

end ExprBuilder

/-! ### Assignments -/

namespace Process

open Handler Stateful

variable {Reg : Type} [DecidableEq Reg] {T : Process Reg} {σ : Session} {s : Shadow}
variable {v v₁ v' : ShadowMap Reg} {d : Operand Reg} {os : List (Operand Reg)} {input : Input}
variable {u : Input → BitVec (d.size T * 8)} {α : Type}

/-- From `v` to `v'` the operand `d` is assigned `u`, and no other place that depends on the
input loses its expression. -/
structure Assigns (input : Input) (T : Process Reg) (v v' : ShadowMap Reg) (d : Operand Reg)
    (u : Input → BitVec (d.size T * 8)) : Prop where
  delivers : ∀ ρ, Delivers input T v' d u ρ
  other : ∀ k, k ∉ d.written T → v' k = v k ∨ ¬ Symbolic v k ∧ v' k = none

omit [DecidableEq Reg] in
theorem Assigns.of_puts (hfades : Fades v v₁) (h : T.Puts v₁ v' d u) :
    Assigns input T v v' d u where
  delivers ρ := (h.shows ρ).delivers_iff.2 rfl
  other k hk := h.other k hk ▸ hfades k

omit [DecidableEq Reg] in
theorem Assigns.of_empty (hfades : Fades v v₁) (hsame : ∀ ρ, u ρ = u input)
    (hempty : ∀ k ∈ d.places T, v' k = none) (hother : ∀ k, k ∉ d.written T → v' k = v₁ k) :
    Assigns input T v v' d u where
  delivers ρ := (delivers_iff_of_empty hempty).2 (hsame ρ)
  other k hk := hother k hk ▸ hfades k

omit [DecidableEq Reg] in
/-- Operands that are left empty have the values of the process. -/
theorem Idle.bv_constant (h : T.Idle v v' os) (hv : T.Consistent input v) {o : Operand Reg}
    (ho : o ∈ os) (ρ : Input) : o.bv T v ρ = o.bv T v input := by
  have hnot (k : Place Reg) (hk : k ∈ o.places T) : ¬ Symbolic v k := h.not_symbolic ho hk
  rw [hv.bv hnot ρ, hv.bv hnot input]

/-- A handler that computes its destination from operands. `F` is said of the flags. -/
theorem computing_assigns {operands : Handler Reg (Option α)} {concrete : Handler Reg Unit}
    {compute : α → Handler Reg Unit} {R : α → Prop} {F : Eflags → Prop}
    (h : Fetches σ T operands s os R) (hreads : Returns (body σ) exactly operands s)
    (hsame : ∀ s₁, T.Idle (T.peek s) (T.peek s₁) os → ∀ ρ, u ρ = u σ.input)
    (hconcrete : ∀ s₁, T.Aged s s₁ → T.Empty (T.peek s₁) os →
      Achieves (body σ) exactly concrete s₁ fun _ s' _ => F s'.eflags ∧
        (∀ k ∈ d.places T, T.peek s' k = none) ∧
        ∀ k, k ∉ d.written T → T.peek s' k = T.peek s₁ k)
    (hcompute : ∀ s₁ x, T.Aged s s₁ → R x →
      Achieves (body σ) exactly (compute x) s₁ fun _ s' _ => F s'.eflags ∧
        T.Puts (T.peek s₁) (T.peek s') d u) :
    Achieves (body σ) exactly (computing operands concrete compute) s fun _ s' _ =>
      F s'.eflags ∧ Assigns σ.input T (T.peek s) (T.peek s') d u := by
  refine computing_achieves h hreads (fun s₁ h₁ hidle => ?_) fun s₁ x h₁ hx => ?_
  · refine (hconcrete s₁ h₁ hidle.empty).mono fun _ s' _ ⟨hF, hempty, hother⟩ => ⟨hF, ?_⟩
    exact .of_empty h₁.fades (hsame s₁ hidle) hempty hother
  · exact (hcompute s₁ x h₁ hx).mono fun _ s' _ ⟨hF, hputs⟩ => ⟨hF, .of_puts h₁.fades hputs⟩

section Registers

variable (hP : T.pin.Documented)
include hP

/-- A register that is let go of. -/
theorem clearExprFromReg_drops {r : Reg} (hr : T.Tracked r) :
    Achieves (body σ) exactly (T.clearExprFromReg r) s fun _ s' _ => s'.eflags = s.eflags ∧
      (∀ k ∈ (Operand.reg r).places T, T.peek s' k = none) ∧
      ∀ k, k ∉ (Operand.reg r).written T → T.peek s' k = T.peek s k := by
  refine (clearExprFromReg_returns hr).achieves ?_
  refine (clearExprFromReg_cleared hP r).mono fun _ s' _ ⟨_, heq, hcleared, _⟩ =>
    ⟨heq, fun k hk => hcleared.empty k (places_subset_dropped hP (.reg r) hk), fun k hk => ?_⟩
  exact hcleared.same k (mt (Operand.mem_dropped_iff hP _ k).1 hk)

/-- What a register is assigned is put together from what was read, or the register is let go
of. -/
theorem vex_assigns (hb : T.builder = chain) {r : Reg} (hr : T.Tracked r)
    {operands : Handler Reg (Option α)} {result : α → Build Expr} {R : α → Prop}
    {u : Input → BitVec (T.pin.regSize r * 8)} (h : Fetches σ T operands s os R)
    (hreads : Returns (body σ) exactly operands s)
    (hsame : ∀ s₁, T.Idle (T.peek s) (T.peek s₁) os → ∀ ρ, u ρ = u σ.input)
    (hresult : ∀ x, R x → Builds σ exactly (result x) (Expresses (T.pin.regSize r * 8) u)) :
    Achieves (body σ) exactly (T.vex operands r result) s fun _ s' _ =>
      s'.eflags = s.eflags ∧ Assigns σ.input T (T.peek s) (T.peek s') (.reg r) u := by
  have hsize : T.pin.regSize r ≤ 2 ^ 64 :=
    (by decide : ∀ n ∈ [1, 2, 4, 8, 16, 32], n ≤ 2 ^ 64) _ hr.size
  refine computing_assigns (d := .reg r) (F := (· = s.eflags)) h hreads hsame
    (fun s₁ h₁ _ => ?_) fun s₁ x h₁ hx => ?_
  · exact h₁.eflags ▸ clearExprFromReg_drops hP hr
  · refine Achieves.lift_bind (hresult x hx) fun res hres => ?_
    exact h₁.eflags ▸ set_achieves (o := .reg r) hP hb hr hsize hres

end Registers

end Process

/-! ### The instructions -/

/-- `INC` and `DEC`. -/
inductive StepKind
  | inc | dec
  deriving DecidableEq, Repr

namespace StepKind

variable {n : Nat}

def kind : StepKind → BinaryKind
  | inc => .add
  | dec => .sub

def op : StepKind → OpKind
  | inc => .inc
  | dec => .dec

def operation (step : StepKind) (d : BitVec n) : Operation :=
  match step with
  | inc => .inc n d
  | dec => .dec n d

variable {σ : Session} {ρ : Input} (step : StepKind) {d : BitVec n} {e : Eflags} {f : Eflag}
variable {b : Bool}

/-- The flags of `INC` and `DEC` are let go of with a concrete operand. -/
theorem tells_invalidate (hf : (step.operation d).flag f = some b) :
    (e.invalidate step.op).Tells σ ρ f b := by
  intro hhas
  have htouches : step.op.touches f = true := by
    cases step <;> cases f <;> first | rfl | cases hf
  rw [Eflags.has_invalidate, htouches, Bool.not_true, Bool.and_false] at hhas
  cases hhas

/-- The flags that are recorded are those of the machine. -/
theorem performs (hn : 8 ≤ n) {a : Input → BitVec n} {res : Expr}
    (h : Expresses n (fun ρ => step.kind.apply (a ρ) 1) res)
    (x y : Option Expr) (ρ : Input) :
    Performs ρ ⟨step.op, some res, x, y⟩ (step.operation (a ρ)) := by
  cases step with
  | inc => exact .inc hn (h.at ρ)
  | dec => exact .dec hn (h.at ρ)

end StepKind

/-- The handlers, by their operands. -/
inductive AssignForm (Reg : Type)
  | cbw (dst src : Reg)
  | cwd (dx ax : Reg)
  | bswap (dst : Reg)
  | stepReg (dst : Reg) (step : StepKind)
  | stepMem (m : MemArg Reg) (step : StepKind)
  | insertReg (dst src1 src2 : Reg) (imm : Addr)
  | insertMem (dst src1 : Reg) (m : MemArg Reg) (imm : Addr)

namespace AssignForm

open Handler Process

variable {Reg : Type} [DecidableEq Reg] (T : Process Reg)

def handler : AssignForm Reg → Handler Reg Unit
  | cbw dst src => T.instrumentCbw dst src
  | cwd dx ax => T.instrumentCwd dx ax
  | bswap dst => T.instrumentBswapReg dst
  | stepReg dst step => T.instrumentIncDecReg dst step.kind
  | stepMem m step => T.instrumentIncDecMem m step.kind
  | insertReg dst src1 src2 imm => T.instrumentVinsert128iRegRegRegImm dst src1 src2 imm
  | insertMem dst src1 m imm => T.instrumentVinsert128iRegRegMemImm dst src1 m imm

def dst : AssignForm Reg → Operand Reg
  | cbw dst _ | bswap dst | stepReg dst _ | insertReg dst .. | insertMem dst .. => .reg dst
  | cwd dx _ => .reg dx
  | stepMem m _ => .mem m.addr m.size

/-- The sizes of the instructions. -/
def Handled : AssignForm Reg → Prop
  | cbw dst src => T.pin.regSize src ≤ T.pin.regSize dst
  | cwd dx ax => T.pin.regSize dx = T.pin.regSize ax
  | bswap _ | stepReg .. => True
  | stepMem m _ => m.size ∈ [1, 2, 4, 8]
  | insertReg dst src1 src2 _ =>
      T.pin.regSize dst = 32 ∧ T.pin.regSize src1 = 32 ∧ T.pin.regSize src2 = 16
  | insertMem dst src1 m _ => T.pin.regSize dst = 32 ∧ T.pin.regSize src1 = 32 ∧ m.size = 16

/-- The operands can be read, and the destination written. -/
def Ready (s : Shadow) : AssignForm Reg → Prop
  | cbw dst src | cwd dst src => T.Tracked dst ∧ T.Tracked src
  | bswap dst | stepReg dst _ => T.Tracked dst
  | stepMem m _ => T.Addressed m ∧ Mapped s.memory m.addr m.size
  | insertReg dst src1 src2 _ => T.Tracked dst ∧ T.Tracked src1 ∧ T.Tracked src2
  | insertMem dst src1 m _ => T.Tracked dst ∧ T.Tracked src1 ∧ T.Addressed m

/-- The destination of the machine. -/
def machine (v : ShadowMap Reg) (form : AssignForm Reg) (ρ : Input) :
    BitVec (form.dst.size T * 8) :=
  match form with
  | cbw _ src => ((Operand.reg src).bv T v ρ).signExtend _
  | cwd _ ax => signs _ ((Operand.reg ax).bv T v ρ)
  | bswap dst => X86.bswap ((Operand.reg dst).bv T v ρ)
  | stepReg dst step => step.kind.apply ((Operand.reg dst).bv T v ρ) 1
  | stepMem m step => step.kind.apply ((Operand.mem m.addr m.size).bv T v ρ) 1
  | insertReg _ src1 src2 imm => insert128 imm (((Operand.reg src1).bv T v ρ).setWidth _)
      (((Operand.reg src2).bv T v ρ).setWidth 128)
  | insertMem _ src1 m imm => insert128 imm (((Operand.reg src1).bv T v ρ).setWidth _)
      (((Operand.mem m.addr m.size).bv T v ρ).setWidth 128)

/-- The flags: jumps are told those of `INC` and `DEC`, and the others leave them alone. -/
def Flags (σ : Session) (v : ShadowMap Reg) (form : AssignForm Reg) (e e' : Eflags) : Prop :=
  match form with
  | stepReg dst step => ∀ ρ f b,
      (step.operation ((Operand.reg dst).bv T v ρ)).flag f = some b → e'.Tells σ ρ f b
  | stepMem m step => ∀ ρ f b,
      (step.operation ((Operand.mem m.addr m.size).bv T v ρ)).flag f = some b → e'.Tells σ ρ f b
  | _ => e' = e

end AssignForm

namespace Process

open Handler Stateful

variable {Reg : Type} [DecidableEq Reg] {T : Process Reg} {σ : Session} {s : Shadow}

section Handlers

variable (hP : T.pin.Documented) (hb : T.builder = chain) (hs : s.WellFormed)
  (hv : T.Consistent σ.input (T.peek s))

omit [DecidableEq Reg] in
include hb in
/-- What `doIncDec` records and makes of a symbolic operand. -/
theorem doIncDec_steps (step : StepKind) {n : Nat} (hn : 8 ≤ n) {a : Input → BitVec n} {e : Expr}
    (he : Expresses n a e) :
    Achieves (body σ) exactly (T.doIncDec step.kind step.op e) s fun res s' _ =>
      Expresses n (fun ρ => step.kind.apply (a ρ) 1) res ∧ ∃ one,
        s' = { s with eflags := s.eflags.set step.op (some res) (some e) (some one) } := by
  have hkind : step.kind ≠ .sdiv ∧ step.kind.isLogical = false := by
    cases step <;> exact ⟨nofun, rfl⟩
  have hpos : 0 < n := by omega
  unfold doIncDec
  rw [he.bits, hb]
  refine Achieves.lift_bind (Expresses.createConstant_builds 1 hpos) fun one hone => ?_
  refine Achieves.lift_bind (he.binary_builds hkind.1 hkind.2 hone) fun res hres => ?_
  exact onEflags_bind (.ret ⟨hres, one, rfl⟩)

include hP hb hs hv in
/-- `INC` or `DEC` of an operand. -/
theorem step_assigns {p : Handler Reg (Option Expr)} {d : Operand Reg} (step : StepKind)
    (hp : Returns (body σ) exactly p s) (hgets : Gets σ T p d)
    (hd : 0 < d.size T ∧ d.size T ≤ 2 ^ 64) (hw : T.Writable s d) :
    Achieves (body σ) exactly (T.instrumentIncDec p step.kind (d.set T)) s fun _ s' _ =>
      (∀ ρ f b, (step.operation (d.bv T (T.peek s) ρ)).flag f = some b →
        s'.eflags.Tells σ ρ f b) ∧
      Assigns σ.input T (T.peek s) (T.peek s') d
        fun ρ => step.kind.apply (d.bv T (T.peek s) ρ) 1 := by
  have hn : 8 ≤ d.size T * 8 := by omega
  have hop (s : Shadow) : Achieves (body σ) exactly (getOpKindIncDec step.kind : Handler Reg OpKind)
      s fun op s' _ => op = step.op ∧ s' = s := by
    cases step <;> exact Total.ret ⟨rfl, rfl⟩
  refine Achieves.bind (hp.achieves (hgets s hs hv)) fun x s₁ _ ⟨h₁, hx, hempty⟩ => ?_
  refine (hop s₁).bind fun op s₂ _ ⟨hkind, hs₂⟩ => ?_
  rw [hkind, hs₂]
  have hreturn : Achieves (body σ) exactly (return x : Handler Reg _) s₁ fun y s' _ =>
      y = x ∧ s' = s₁ :=
    .ret ⟨rfl, rfl⟩
  refine hreturn.bind fun y s₃ _ ⟨hy, hs₃⟩ => ?_
  rw [hy, hs₃]
  cases x with
  | none =>
      have hidle : T.Idle (T.peek s) (T.peek s₁) [d] := ⟨h₁.fades, hempty rfl⟩
      refine Total.ret ⟨fun ρ f b hf => step.tells_invalidate hf, ?_⟩
      refine .of_empty h₁.fades (fun ρ => ?_) (hempty rfl d List.mem_cons_self) fun _ _ => rfl
      rw [hidle.bv_constant hv List.mem_cons_self]
  | some e =>
      have he : Expresses (d.size T * 8) (d.bv T (T.peek s)) e := hx
      have hdo : Achieves (body σ) exactly (do
          let res ← T.doIncDec step.kind step.op e
          d.set T (some res)) s₁ fun _ s' _ =>
            (∀ ρ f b, (step.operation (d.bv T (T.peek s) ρ)).flag f = some b →
              s'.eflags.Tells σ ρ f b) ∧
            T.Puts (T.peek s₁) (T.peek s') d fun ρ => step.kind.apply (d.bv T (T.peek s) ρ) 1 := by
        refine (doIncDec_steps hb step hn he).bind fun res s₂ _ ⟨hres, one, hs₂⟩ => ?_
        have hw₂ : T.Writable s₂ d := by
          rw [hs₂]
          exact hw.of_samePages h₁.pages
        refine (set_achieves hP hb hw₂ hd.2 hres).mono fun _ s' _ ⟨heq, hputs⟩ => ?_
        have hpeek : T.peek s₂ = T.peek s₁ := by rw [hs₂]; rfl
        refine ⟨fun ρ f b hf => ?_, hpeek ▸ hputs⟩
        have hreports := (step.performs hn hres (some e) (some one) ρ).reports (σ := σ) hf s₁.eflags
        rw [heq, hs₂]
        exact hreports.tells_iff.2 rfl
      exact hdo.mono fun _ s' _ ⟨hflags, hputs⟩ => ⟨hflags, .of_puts h₁.fades hputs⟩

include hP hb hs hv in
/-- A register that is computed from one operand. -/
theorem source_assigns {p : Handler Reg (Option Expr)} {o : Operand Reg} {r : Reg}
    {result : Expr → Build Expr} (g : BitVec (o.size T * 8) → BitVec (T.pin.regSize r * 8))
    (hp : Returns (body σ) exactly p s) (hgets : Gets σ T p o) (hr : T.Tracked r)
    (hresult : ∀ e, Expresses (o.size T * 8) (o.bv T (T.peek s)) e →
      Builds σ exactly (result e)
        (Expresses (T.pin.regSize r * 8) fun ρ => g (o.bv T (T.peek s) ρ))) :
    Achieves (body σ) exactly (T.vex p r result) s fun _ s' _ => s'.eflags = s.eflags ∧
      Assigns σ.input T (T.peek s) (T.peek s') (.reg r) fun ρ => g (o.bv T (T.peek s) ρ) := by
  refine vex_assigns hP hb hr (fetches_get hs hv hgets) hp (fun s₁ hidle ρ => ?_) hresult
  rw [hidle.bv_constant hv List.mem_cons_self]

include hP hb hs hv in
theorem bswap_assigns {dst : Reg} (hdst : T.Tracked dst) :
    Achieves (body σ) exactly (T.instrumentBswapReg dst) s fun _ s' _ => s'.eflags = s.eflags ∧
      Assigns σ.input T (T.peek s) (T.peek s') (.reg dst)
        fun ρ => X86.bswap ((Operand.reg dst).bv T (T.peek s) ρ) := by
  have hsize : T.pin.regSize dst ≤ 2 ^ 64 :=
    (by decide : ∀ n ∈ [1, 2, 4, 8, 16, 32], n ≤ 2 ^ 64) _ hdst.size
  refine computing_assigns (d := .reg dst) (F := (· = s.eflags))
    (fetches_get hs hv (get_gets hP hb (.reg dst))) (getExprFromReg_returns hP hb hs hdst)
    (fun s₁ hidle ρ => ?_) (fun s₁ h₁ hempty => ?_) fun s₁ x h₁ hx => ?_
  · rw [hidle.bv_constant hv List.mem_cons_self]
  · exact .ret ⟨h₁.eflags, hempty _ List.mem_cons_self, fun _ _ => rfl⟩
  · have hres : Builds σ exactly (T.builder.swapBytes x) _ :=
      hb ▸ ExprBuilder.swapBytes_builds (Nat.dvd_mul_left 8 _) hx
    refine Achieves.lift_bind hres fun res hres => ?_
    exact h₁.eflags ▸ set_achieves (o := .reg dst) hP hb hdst hsize hres

include hP hb hs hv in
theorem cwd_assigns {dx ax : Reg} (hdx : T.Tracked dx) (hax : T.Tracked ax)
    (hsize : T.pin.regSize dx = T.pin.regSize ax) :
    Achieves (body σ) exactly (T.instrumentCwd dx ax) s fun _ s' _ => s'.eflags = s.eflags ∧
      Assigns σ.input T (T.peek s) (T.peek s') (.reg dx)
        fun ρ => signs _ ((Operand.reg ax).bv T (T.peek s) ρ) := by
  have hle : T.pin.regSize dx ≤ 2 ^ 64 :=
    (by decide : ∀ n ∈ [1, 2, 4, 8, 16, 32], n ≤ 2 ^ 64) _ hdx.size
  have hpos := hP.size_pos ax
  refine computing_assigns (d := .reg dx) (F := (· = s.eflags))
    (fetches_get hs hv (get_gets hP hb (.reg ax))) (getExprFromReg_returns hP hb hs hax)
    (fun s₁ hidle ρ => ?_) (fun s₁ h₁ _ => ?_) fun s₁ x h₁ hx => ?_
  · rw [hidle.bv_constant hv List.mem_cons_self]
  · exact h₁.eflags ▸ clearExprFromReg_drops hP hdx
  · have hx : Expresses (T.pin.regSize ax * 8) _ x := hx
    have hext := hx.ext_builds (σ := σ) .sext (n := T.pin.regSize ax * 8 * 2) (by omega)
    refine Achieves.lift_bind (hb ▸ hext) fun e he => ?_
    have hextract := he.extract_builds (σ := σ) (i := T.pin.regSize ax * 8)
      (w := T.pin.regSize ax * 8) (by omega) (by omega)
    refine Achieves.lift_bind (hb ▸ hextract) fun res hres => ?_
    have hsigns : Expresses (T.pin.regSize dx * 8)
        (fun ρ => signs _ ((Operand.reg ax).bv T (T.peek s) ρ)) res := by
      rw [hsize]
      exact hres.congr fun ρ => signs_eq_extract _
    exact h₁.eflags ▸ set_achieves (o := .reg dx) hP hb hdx hle hsigns

omit hs in
include hP hb hv in
/-- The upper or the lower half of a register of 256 bits. -/
theorem insert_assigns {dst src1 : Reg} {src2 : Operand Reg} {imm : Addr}
    {operands : Handler Reg (Option (Expr × Expr))} (hdst : T.Tracked dst)
    (hn : T.pin.regSize dst = 32) (hsrc1 : T.pin.regSize src1 = 32) (hsrc2 : src2.size T = 16)
    (h : Fetches σ T operands s [.reg src1, src2] (PairOf T (T.peek s) (.reg src1) src2))
    (hreads : Returns (body σ) exactly operands s) :
    Achieves (body σ) exactly (T.vex operands dst fun x => T.builder.doVinsert128i x.1 x.2 imm) s
      fun _ s' _ => s'.eflags = s.eflags ∧ Assigns σ.input T (T.peek s) (T.peek s') (.reg dst)
        fun ρ => insert128 imm (((Operand.reg src1).bv T (T.peek s) ρ).setWidth _)
          ((src2.bv T (T.peek s) ρ).setWidth 128) := by
  have hbits : T.pin.regSize dst * 8 = 256 := congrArg (· * 8) hn
  have hbits₁ : (Operand.reg src1).size T * 8 = 256 := congrArg (· * 8) hsrc1
  have hbits₂ : src2.size T * 8 = 128 := congrArg (· * 8) hsrc2
  refine vex_assigns hP hb hdst h hreads (fun s₁ hidle ρ => ?_) fun x ⟨ha, hx⟩ => ?_
  · rw [hidle.bv_constant hv List.mem_cons_self,
      hidle.bv_constant hv (List.mem_cons_of_mem _ List.mem_cons_self)]
  · have hwide {n : Nat} (hn : n = 256) : Builds σ exactly (T.builder.doVinsert128i x.1 x.2 imm)
        (Expresses n fun ρ => insert128 imm (((Operand.reg src1).bv T (T.peek s) ρ).setWidth n)
          ((src2.bv T (T.peek s) ρ).setWidth 128)) := by
      subst hn
      rw [hb]
      exact ExprBuilder.doVinsert128i_builds (ha.setWidth hbits₁) (hx.setWidth hbits₂) imm
    exact hwide hbits

include hP hb hs hv in
/-- **Instructions that come out right.** For every operand and input the destination is assigned
the value of the machine, and jumps are told the flags of `INC` and `DEC`; the others leave the
flags alone. -/
theorem instrumentAssign_assigns {form : AssignForm Reg} (hins : form.Handled T)
    (hready : form.Ready T s) :
    Achieves (body σ) exactly (form.handler T) s fun _ s' _ =>
      form.Flags T σ (T.peek s) s.eflags s'.eflags ∧
        Assigns σ.input T (T.peek s) (T.peek s') form.dst (form.machine T (T.peek s)) := by
  cases form with
  | cbw dst src =>
      refine source_assigns hP hb hs hv (o := .reg src) (BitVec.signExtend _)
        (getExprFromReg_returns hP hb hs hready.2) (get_gets hP hb (.reg src)) hready.1
        fun e he => ?_
      exact hb ▸ he.ext_builds .sext (Nat.mul_le_mul_right 8 hins)
  | cwd dx ax => exact cwd_assigns hP hb hs hv hready.1 hready.2 hins
  | bswap dst => exact bswap_assigns hP hb hs hv hready
  | stepReg dst step =>
      have hsize : 0 < T.pin.regSize dst ∧ T.pin.regSize dst ≤ 2 ^ 64 :=
        (by decide : ∀ n ∈ [1, 2, 4, 8, 16, 32], 0 < n ∧ n ≤ 2 ^ 64) _ hready.size
      exact step_assigns hP hb hs hv (d := .reg dst) step (getExprFromReg_returns hP hb hs hready)
        (get_gets hP hb (.reg dst)) hsize hready
  | stepMem m step =>
      have hsize : 0 < m.size ∧ m.size ≤ 2 ^ 64 :=
        (by decide : ∀ n ∈ [1, 2, 4, 8], 0 < n ∧ n ≤ 2 ^ 64) _ hins
      exact step_assigns hP hb hs hv (d := .mem m.addr m.size) step
        (getExprFromMemSrc_returns hP hb hs hready.1) (getExprFromMemSrc_gets hP hb m) hsize
        hready.2
  | insertReg dst src1 src2 imm =>
      obtain ⟨hn, hsrc1, hsrc2⟩ := hins
      exact insert_assigns hP hb hv hready.1 hn hsrc1 hsrc2
        (getExprFromRegReg_fetches hP hb hs hv src1 src2)
        (getExprFromRegReg_returns hP hb hs hready.2.1 hready.2.2)
  | insertMem dst src1 m imm =>
      obtain ⟨hn, hsrc1, hsrc2⟩ := hins
      have hpos : 0 < m.size := by omega
      exact insert_assigns hP hb hv hready.1 hn hsrc1 hsrc2
        (getExprFromRegMem_fetches hP hb hs hv src1 hpos)
        (getExprFromRegMem_returns hP hb hs hready.2.1 hready.2.2 hpos)

end Handlers

end Process

end Qsym
