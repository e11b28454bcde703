import Qsym.Instrument.Result

/-!
# Qsym.Instrument.Carry

`ADC` and `SBB`. The handler first adds the carry to the destination, or takes it off, and
then works on the outcome as the ordinary addition or subtraction does. So the flags lack
what the first step carries: nothing is reported where the destination wraps around, and
the overflow is the wrong one where it changes its sign (`adcCarry_eq_iff`,
`adcOverflow_eq_iff` and those of `SBB`).

A carry that is not symbolic is read from the flags register at the bit that the mask of
the flag is the number of, which is one too high.
-/

namespace X86

open Qsym

variable {n : Nat}

/-- A carry as a number of `n` bits. -/
def carryIn (n : Nat) (c : Bool) : BitVec n :=
  BitVec.ofNat n c.toNat

/-- The number is none of `n` bits with a sign. -/
def overflows (n : Nat) (x : Int) : Bool :=
  2 ^ (n - 1) ≤ x || x < -2 ^ (n - 1)

/-- `ADC` -/
def adc (d s : BitVec n) (c : Bool) : BitVec n :=
  d + s + carryIn n c

def adcCarry (d s : BitVec n) (c : Bool) : Bool :=
  2 ^ n ≤ d.toNat + s.toNat + c.toNat

def adcOverflow (d s : BitVec n) (c : Bool) : Bool :=
  overflows n (d.toInt + s.toInt + c.toNat)

/-- `SBB` -/
def sbb (d s : BitVec n) (c : Bool) : BitVec n :=
  d - s - carryIn n c

def sbbBorrow (d s : BitVec n) (c : Bool) : Bool :=
  d.toNat < s.toNat + c.toNat

def sbbOverflow (d s : BitVec n) (c : Bool) : Bool :=
  overflows n (d.toInt - s.toInt - c.toNat)

/-- The instructions with a carry. -/
inductive CarryKind
  | adc | sbb
  deriving DecidableEq, Repr

namespace CarryKind

def kind : CarryKind → BinaryKind
  | adc => .add
  | sbb => .sub

def op : CarryKind → OpKind
  | adc => .add
  | sbb => .sub

def value : CarryKind → BitVec n → BitVec n → Bool → BitVec n
  | adc => X86.adc
  | sbb => X86.sbb

/-- The carry, or the borrow. -/
def carry : CarryKind → BitVec n → BitVec n → Bool → Bool
  | adc => adcCarry
  | sbb => sbbBorrow

def overflow : CarryKind → BitVec n → BitVec n → Bool → Bool
  | adc => adcOverflow
  | sbb => sbbOverflow

/-- The destination wraps around or changes its sign when the carry goes in. -/
def Wraps : CarryKind → BitVec n → Prop
  | adc, d => d = BitVec.allOnes n ∨ d = BitVec.intMax n
  | sbb, d => d = 0 ∨ d = BitVec.intMin n

end CarryKind

section
variable (hn : 2 ≤ n) (d s : BitVec n)
include hn

theorem carryIn_inj {b c : Bool} (h : carryIn n b = carryIn n c) : b = c := by
  have hpow := two_pow_split hn
  have := congrArg BitVec.toNat h
  cases b <;> cases c <;> simp [carryIn, Nat.mod_eq_of_lt (show 1 < 2 ^ n by omega)] at this ⊢

theorem toInt_add_one :
    (d + 1).toInt = if d = BitVec.intMax n then -2 ^ (n - 1) else d.toInt + 1 := by
  obtain ⟨hpow, hle⟩ := two_pow_split hn
  have hd := d.isLt
  have hmax : d = BitVec.intMax n ↔ d.toNat = 2 ^ (n - 1) - 1 := by
    rw [← BitVec.toNat_inj, BitVec.toNat_intMax]
  have hint : ((2 : Int) ^ (n - 1)) = ((2 ^ (n - 1) : Nat) : Int) := by simp
  simp only [BitVec.toInt_eq_toNat_cond, toNat_add_one _ hn, hmax, hint, hpow]
  split_ifs <;> push_cast <;> omega

theorem toInt_sub_one :
    (d - 1).toInt = if d = BitVec.intMin n then 2 ^ (n - 1) - 1 else d.toInt - 1 := by
  obtain ⟨hpow, hle⟩ := two_pow_split hn
  have hd := d.isLt
  have hmin : d = BitVec.intMin n ↔ d.toNat = 2 ^ (n - 1) := by
    rw [← BitVec.toNat_inj, BitVec.toNat_intMin, hpow, Nat.mod_eq_of_lt (by omega)]
  have hint : ((2 : Int) ^ (n - 1)) = ((2 ^ (n - 1) : Nat) : Int) := by simp
  simp only [BitVec.toInt_eq_toNat_cond, toNat_sub_one _ hn, hmin, hint, hpow]
  split_ifs <;> push_cast <;> omega

omit hn in
theorem overflows_eq_true {x : Int} :
    overflows n x = true ↔ 2 ^ (n - 1) ≤ x ∨ x < -2 ^ (n - 1) := by
  simp [overflows]

theorem adcCarry_eq_iff (c : Bool) :
    (d + carryIn n c).uaddOverflow s = adcCarry d s c ↔ (c = true → d ≠ BitVec.allOnes n) := by
  have hd := d.isLt
  have hs := s.isLt
  cases c with
  | false => simp [carryIn, adcCarry, BitVec.uaddOverflow]
  | true =>
      have hones : d = BitVec.allOnes n ↔ d.toNat + 1 = 2 ^ n := by
        rw [← BitVec.toNat_inj, BitVec.toNat_allOnes]
        omega
      have hone : (d + carryIn n true).toNat = _ := toNat_add_one d hn
      simp only [BitVec.uaddOverflow, adcCarry, hone, Bool.toNat_true, ge_iff_le,
        decide_eq_decide, true_imp_iff, ne_eq, hones]
      split <;> omega

theorem adcOverflow_eq_iff (c : Bool) :
    (d + carryIn n c).saddOverflow s = adcOverflow d s c ↔ (c = true → d ≠ BitVec.intMax n) := by
  have hs := BitVec.toInt_lt (x := s)
  have hs' := BitVec.le_toInt s
  have hd := BitVec.toInt_lt (x := d)
  have hd' := BitVec.le_toInt d
  cases c with
  | false => simp [carryIn, adcOverflow, BitVec.saddOverflow, overflows]
  | true =>
      have hone : (d + carryIn n true).toInt = _ := toInt_add_one hn d
      have hmax : (BitVec.intMax n).toInt = 2 ^ (n - 1) - 1 := by
        rw [BitVec.toInt_intMax]
      show overflows n ((d + carryIn n true).toInt + s.toInt) = _ ↔ _
      rw [Bool.eq_iff_iff, adcOverflow, overflows_eq_true, overflows_eq_true, hone, Bool.toNat_true]
      by_cases hd : d = BitVec.intMax n
      · simp only [hd, hmax, if_true, true_imp_iff, ne_eq, not_true_eq_false,
          iff_false, Nat.cast_one]
        omega
      · simp only [hd, if_false, not_false_eq_true, imp_true_iff, ne_eq, iff_true, Nat.cast_one]
        omega

theorem sbbBorrow_eq_iff (c : Bool) :
    (d - carryIn n c).usubOverflow s = sbbBorrow d s c ↔ (c = true → d ≠ 0) := by
  have hd := d.isLt
  have hs := s.isLt
  cases c with
  | false => simp [carryIn, sbbBorrow, BitVec.usubOverflow]
  | true =>
      have hzero : d = 0 ↔ d.toNat = 0 := BitVec.toNat_inj.symm
      have hone : (d - carryIn n true).toNat = _ := toNat_sub_one d hn
      simp only [BitVec.usubOverflow, sbbBorrow, hone, Bool.toNat_true, decide_eq_decide,
        true_imp_iff, ne_eq, hzero]
      split <;> omega

theorem sbbOverflow_eq_iff (c : Bool) :
    (d - carryIn n c).ssubOverflow s = sbbOverflow d s c ↔ (c = true → d ≠ BitVec.intMin n) := by
  have hs := BitVec.toInt_lt (x := s)
  have hs' := BitVec.le_toInt s
  have hd := BitVec.toInt_lt (x := d)
  have hd' := BitVec.le_toInt d
  cases c with
  | false => simp [carryIn, sbbOverflow, BitVec.ssubOverflow, overflows]
  | true =>
      have hone : (d - carryIn n true).toInt = _ := toInt_sub_one hn d
      have hmin : (BitVec.intMin n).toInt = -2 ^ (n - 1) := BitVec.toInt_intMin_of_pos (by omega)
      show overflows n ((d - carryIn n true).toInt - s.toInt) = _ ↔ _
      rw [Bool.eq_iff_iff, sbbOverflow, overflows_eq_true, overflows_eq_true, hone, Bool.toNat_true]
      by_cases hd : d = BitVec.intMin n
      · simp only [hd, hmin, if_true, true_imp_iff, ne_eq, not_true_eq_false,
          iff_false, Nat.cast_one]
        omega
      · simp only [hd, if_false, not_false_eq_true, imp_true_iff, ne_eq, iff_true, Nat.cast_one]
        omega

end

end X86

namespace X86.CarryKind

open Qsym

variable {n : Nat} (k : CarryKind) (d s : BitVec n) (u c : Bool)

/-- What the handler records, with `u` as the carry: the second step. -/
def operation : CarryKind → BitVec n → BitVec n → Bool → Operation
  | adc, d, s, u => .add n (d + carryIn n u) s
  | sbb, d, s, u => .sub n (d - carryIn n u) s

theorem value_eq_iff (hn : 2 ≤ n) :
    k.kind.apply (k.kind.apply d (carryIn n u)) s = k.value d s c ↔ u = c := by
  have hinj : carryIn n u = carryIn n c ↔ u = c := ⟨carryIn_inj hn, congrArg _⟩
  rw [← hinj]
  cases k with
  | adc =>
      show d + carryIn n u + s = d + s + carryIn n c ↔ _
      rw [add_right_comm]
      exact add_right_inj _
  | sbb =>
      show d - carryIn n u - s = d - s - carryIn n c ↔ _
      rw [sub_right_comm]
      exact sub_right_inj

theorem flags_iff (hn : 2 ≤ n) :
    (operation k d s c).flag .cf = some (k.carry d s c) ∧
      (operation k d s c).flag .of = some (k.overflow d s c) ↔ (c = true → ¬ k.Wraps d) := by
  have hboth {p q : Prop} : (c = true → ¬ p) ∧ (c = true → ¬ q) ↔ (c = true → ¬ (p ∨ q)) := by
    rw [not_or, imp_and]
  cases k with
  | adc =>
      simp only [operation, Operation.flag, Option.some.injEq, carry, overflow, Wraps,
        adcCarry_eq_iff hn, adcOverflow_eq_iff hn, ne_eq, hboth]
  | sbb =>
      simp only [operation, Operation.flag, Option.some.injEq, carry, overflow, Wraps,
        sbbBorrow_eq_iff hn, sbbOverflow_eq_iff hn, ne_eq, hboth]

end X86.CarryKind

namespace Qsym

open Procedure X86

/-- The handlers of `ADC` and `SBB`, by their operands. -/
inductive CarryForm (Reg : Type)
  | regReg (dst src : Reg)
  | regImm (dst : Reg) (imm : Addr)
  | regMem (dst : Reg) (m : MemArg Reg)
  | memReg (m : MemArg Reg) (src : Reg)
  | memImm (m : MemArg Reg) (imm : Addr)

namespace CarryForm

open Handler Process

variable {Reg : Type} [DecidableEq Reg] (T : Process Reg)

def handler (kind : BinaryKind) : CarryForm Reg → Handler Reg Unit
  | regReg dst src => T.instrumentCarryRegReg dst src kind
  | regImm dst imm => T.instrumentCarryRegImm dst imm kind
  | regMem dst m => T.instrumentCarryRegMem dst m kind
  | memReg m src => T.instrumentCarryMemReg m src kind
  | memImm m imm => T.instrumentCarryMemImm m imm kind

def operands : CarryForm Reg → Handler Reg (Option (Expr × Expr × Expr))
  | regReg dst src => T.getExprFromRegRegCf dst src
  | regImm dst imm => T.getExprFromRegImmCf dst imm
  | regMem dst m => T.getExprFromRegMemCf dst m
  | memReg m src => T.getExprFromMemRegCf m src
  | memImm m imm => T.getExprFromMemImmCf m imm

def dst : CarryForm Reg → Operand Reg
  | regReg dst _ | regImm dst _ | regMem dst _ => .reg dst
  | memReg m _ | memImm m _ => .mem m.addr m.size

/-- The source, unless it is an immediate. -/
def src : CarryForm Reg → Option (Operand Reg)
  | regReg _ src | memReg _ src => some (.reg src)
  | regMem _ m => some (.mem m.addr m.size)
  | regImm .. | memImm .. => none

/-- The operands that are read. -/
def sources (form : CarryForm Reg) : List (Operand Reg) :=
  form.dst :: form.src.toList

/-- The operands without the carry. -/
def pair : CarryForm Reg → Handler Reg (Option (Expr × Expr))
  | regReg dst src => T.getExprFromRegReg dst src
  | regImm dst imm => T.getExprFromRegImm dst imm
  | regMem dst m => T.getExprFromRegMem dst m
  | memReg m src => T.getExprFromMemReg m src
  | memImm m imm => T.getExprFromMemImm m imm

/-- The width that the handler takes for the carry. -/
def bits : CarryForm Reg → Nat
  | regReg dst _ | regImm dst _ => T.pin.regSize dst * 8
  | regMem _ m | memReg m _ | memImm m _ => m.size * 8

/-- The expression of the destination, if it has one. -/
def fixDst : CarryForm Reg → Option Expr → Build Expr
  | regReg dst _ | regImm dst _ | regMem dst _ => (T.fixRegExpr · dst)
  | memReg m _ | memImm m _ => (T.fixMemExpr · m.addr m.size)

def fixSrc : CarryForm Reg → Option Expr → Build Expr
  | regReg _ src | memReg _ src => (T.fixRegExpr · src)
  | regMem _ m => (T.fixMemExpr · m.addr m.size)
  | regImm dst imm => (T.fixImmExpr · imm (T.pin.regSize dst * 8))
  | memImm m imm => (T.fixImmExpr · imm (m.size * 8))

/-- The operands have one size. -/
def Sized (form : CarryForm Reg) : Prop :=
  form.dst.size T ∈ [1, 2, 4, 8] ∧ ∀ o, form.src = some o → o.size T = form.dst.size T

/-- The operands can be read, and the destination can be written. -/
def Ready (s : Shadow) : CarryForm Reg → Prop
  | regReg dst src => T.Tracked dst ∧ T.Tracked src
  | regImm dst _ => T.Tracked dst
  | regMem dst m => T.Tracked dst ∧ T.Addressed m
  | memReg m src => T.Addressed m ∧ T.Tracked src ∧ Mapped s.memory m.addr m.size
  | memImm m _ => T.Addressed m ∧ Mapped s.memory m.addr m.size

section

variable (v : ShadowMap Reg) (form : CarryForm Reg) (ρ : Input)

def dstBv : BitVec (form.dst.size T * 8) :=
  form.dst.bv T v ρ

def srcBv : BitVec (form.dst.size T * 8) :=
  match form with
  | regReg _ src | memReg _ src => ((Operand.reg src).bv T v ρ).setWidth _
  | regMem _ m => ((Operand.mem m.addr m.size).bv T v ρ).setWidth _
  | regImm _ imm | memImm _ imm => BitVec.ofNat _ imm.toNat

end

variable {T} {σ : Session} {ok : MethodCall → Prop} (form : CarryForm Reg) {s : Shadow}

theorem handler_eq (kind : BinaryKind) :
    form.handler T kind = T.instrumentCarry (form.operands T) kind (form.dst.set T) := by
  cases form <;> rfl

/-- The carry is looked at before the other operands. -/
theorem operands_eq : form.operands T = T.computeCfAsExpr (form.bits T) >>= fun cf =>
    form.pair T >>= fun x => Stateful.lift
      (Process.fixThird x cf (form.fixDst T) (form.fixSrc T) (T.fixCfExpr · (form.bits T))) := by
  cases form <;> rfl

variable {form}

omit [DecidableEq Reg] in
theorem Sized.bits_eq (h : form.Sized T) : form.bits T = form.dst.size T * 8 := by
  cases form with
  | regMem dst m => exact congrArg (· * 8) (h.2 _ rfl)
  | _ => rfl

theorem Ready.writable (h : form.Ready T s) : T.Writable s form.dst := by
  cases form with
  | regReg | regMem => exact h.1
  | regImm => exact h
  | memReg => exact h.2.2
  | memImm => exact h.2

end CarryForm

namespace Process

open Handler Stateful

variable {Reg : Type} [DecidableEq Reg] (T : Process Reg)

/-- A bit of the flags register. -/
def eflagsBit (i : Nat) : Bool :=
  (T.getRegValue T.pin.regEflags).testBit i

/-- The carry before the instruction: what a jump is told if the flag is known, and
otherwise bit 0 of the flags register. -/
def CarryBefore (σ : Session) (ρ : Input) (e : Eflags) (c : Bool) : Prop :=
  if e.isValid .b then
    Builds σ anyCall (e.computeJcc SymbolicExprBuilder.chain .b false) (Says (· = ρ) fun _ => c)
  else c = T.eflagsBit 0

/-- The carry that goes into the result. -/
def carryUsed (e : Eflags) (c : Bool) : Bool :=
  if e.isValid .b then c else T.eflagsBit 1

variable {T} {σ : Session} {ok : MethodCall → Prop} {ρ : Input} {n : Nat} {c : Bool}
variable {s : Shadow} {form : CarryForm Reg}

theorem boolToBit_builds {b : ExprBuilder} {E : Input → Prop} {c : Input → Bool}
    (hb : SoundSimply σ ok E b) (hn : 0 < n) {e : Expr} (he : Decides E c e) :
    Builds σ ok (b.boolToBit e n) (Denotes E n fun ρ => carryIn n (c ρ)) := by
  refine Total.bind (hb.constant _ rfl hn) fun e1 h1 => ?_
  refine Total.bind (hb.constant _ rfl hn) fun e0 h0 => ?_
  refine (hb.ite rfl he h1 h0).mono fun x hx => hx.congr fun ρ _ => ?_
  cases c ρ <;> rfl

omit [DecidableEq Reg] in
/-- The expression of the carry, if the flag is known. -/
theorem computeCfAsExpr_achieves (hb : T.builder = SymbolicExprBuilder.chain) (hn : 0 < n)
    (hc : T.CarryBefore σ ρ s.eflags c) :
    Achieves (body σ) ok (T.computeCfAsExpr n : Handler Reg _) s fun x s' _ => s' = s ∧
      (x = none → s.eflags.isValid .b = false) ∧
      ∀ e, x = some e → Denotes (· = ρ) n (fun _ => carryIn n (T.carryUsed s.eflags c)) e := by
  have hjcc : Builds σ ok (s.eflags.computeJcc T.builder .b false) fun x =>
      (x = none → s.eflags.isValid .b = false) ∧
        ∀ e, x = some e → Decides (· = ρ) (fun _ => T.carryUsed s.eflags c) e := by
    rw [hb]
    cases hv : s.eflags.isValid .b with
    | false =>
        rw [Eflags.computeJcc, if_neg (by simp [hv])]
        exact .ret ⟨fun _ => rfl, by rintro _ ⟨⟩⟩
    | true =>
        rw [CarryBefore, if_pos hv] at hc
        refine (Total.of_true hc).mono ?_
        rintro _ ⟨e, rfl, he⟩
        refine ⟨by rintro ⟨⟩, ?_⟩
        rintro _ ⟨⟩
        rwa [carryUsed, if_pos hv]
  have hcond : Achieves (body σ) ok (T.computeJcc .b false) s fun x s' _ => s' = s ∧
      ((x = none → s.eflags.isValid .b = false) ∧
        ∀ e, x = some e → Decides (· = ρ) (fun _ => T.carryUsed s.eflags c) e) := by
    have hget : Achieves (body σ) ok (Stateful.get : Handler Reg Shadow) s fun x s' l =>
        x = s ∧ s' = s ∧ l = [] := Total.ret ⟨rfl, rfl, rfl⟩
    refine hget.bind ?_
    rintro _ _ _ ⟨rfl, rfl, rfl⟩
    refine Achieves.lift hjcc ?_
    exact fun x hx => ⟨rfl, hx⟩
  refine hcond.bind ?_
  rintro x s₁ _ ⟨rfl, hnone, hsome⟩
  cases x with
  | none => exact .ret ⟨rfl, fun _ => hnone rfl, by rintro _ ⟨⟩⟩
  | some e =>
      have hbit : Builds σ ok (T.builder.boolToBit e n)
          (Denotes (· = ρ) n fun _ => carryIn n (T.carryUsed s₁.eflags c)) := by
        rw [hb]
        exact Total.of_true (boolToBit_builds (chain_soundSimply σ (· = ρ)) hn (hsome e rfl))
      refine Achieves.lift_bind hbit fun e' he' => Achieves.ret ?_
      exact ⟨rfl, by rintro ⟨⟩, fun _ h => Option.some.inj h ▸ he'⟩

/-! ### Operands -/

omit [DecidableEq Reg] in
/-- What comes of the three parts. -/
theorem fixThird_carries {pair : Option (Expr × Expr)} {third : Option Expr}
    {fixDst fixSrc fixCf : Option Expr → Build Expr} {P Q R : Expr → Prop}
    (hP : Builds σ ok (fixDst (pair.map Prod.fst)) P)
    (hQ : Builds σ ok (fixSrc (pair.map Prod.snd)) Q)
    (hR : Builds σ ok (fixCf third) R) :
    Builds σ ok (fixThird pair third fixDst fixSrc fixCf) fun x =>
      (x = none → pair = none ∧ third = none) ∧ ∀ y, x = some y → P y.1 ∧ Q y.2.1 ∧ R y.2.2 := by
  have hrest : Builds σ ok (do
      let dst ← fixDst (pair.map Prod.fst)
      let src ← fixSrc (pair.map Prod.snd)
      let third ← fixCf third
      return some (dst, src, third) : Build (Option (Expr × Expr × Expr))) fun x =>
        (x = none → pair = none ∧ third = none) ∧ ∀ y, x = some y → P y.1 ∧ Q y.2.1 ∧ R y.2.2 := by
    refine Total.bind hP fun dst hdst => Total.bind hQ fun src hsrc => Total.bind hR
      fun cf hcf => ?_
    refine .ret ⟨nofun, ?_⟩
    rintro _ ⟨⟩
    exact ⟨hdst, hsrc, hcf⟩
  unfold fixThird
  split
  next => exact .ret ⟨fun _ => ⟨rfl, rfl⟩, nofun⟩
  next => exact hrest

/-- Both operands as they are. -/
def CarryGiven (T : Process Reg) (v : ShadowMap Reg) (form : CarryForm Reg) (x : Expr × Expr) :
    Prop :=
  Expresses (form.dst.size T * 8) (form.dstBv T v) x.1 ∧
    Expresses (form.dst.size T * 8) (form.srcBv T v) x.2

section Operands

variable (hP : T.pin.Documented) (hb : T.builder = SymbolicExprBuilder.chain) (hs : s.WellFormed)
  (hv : T.Consistent σ.input (T.peek s)) (form : CarryForm Reg) (hn : form.Sized T)

omit [DecidableEq Reg] in
theorem carry_size_pos (hn : form.Sized T) : 0 < form.dst.size T := by
  have hdst := hn.1
  simp only [List.mem_cons, List.not_mem_nil, or_false] at hdst
  omega

include hP hb hs hv hn in
theorem carryPair_fetches : Fetches σ T (form.pair T) s form.sources
    (CarryGiven T (T.peek s) form) := by
  have hpos := carry_size_pos form hn
  cases form with
  | regReg dst src =>
      refine (getExprFromRegReg_fetches hP hb hs hv dst src).mono fun x hx => ⟨hx.1, ?_⟩
      exact hx.2.setWidth (congrArg (· * 8) (hn.2 _ rfl))
  | regImm dst imm => exact getExprFromRegImm_fetches hP hb hs hv dst imm
  | regMem dst m =>
      have hsize : m.size = T.pin.regSize dst := hn.2 _ rfl
      refine (getExprFromRegMem_fetches hP hb hs hv dst (hsize ▸ hpos)).mono fun x hx => ⟨hx.1, ?_⟩
      exact hx.2.setWidth (congrArg (· * 8) hsize)
  | memReg m src =>
      refine (getExprFromMemReg_fetches hP hb hs hv hpos src).mono fun x hx => ⟨hx.1, ?_⟩
      exact hx.2.setWidth (congrArg (· * 8) (hn.2 _ rfl))
  | memImm m imm => exact getExprFromMemImm_fetches hP hb hs hv hpos imm

include hP hb hs hv hn in
theorem carryPair_returns (hready : form.Ready T s) : Returns (body σ) exactly (form.pair T) s := by
  have hpos := carry_size_pos form hn
  cases form with
  | regReg dst src => exact getExprFromRegReg_returns hP hb hs hready.1 hready.2
  | regImm dst imm => exact getExprFromRegImm_returns hP hb hs hready imm hv
  | regMem dst m =>
      have hsize : m.size = T.pin.regSize dst := hn.2 _ rfl
      exact getExprFromRegMem_returns hP hb hs hready.1 hready.2 (hsize ▸ hpos)
  | memReg m src => exact getExprFromMemReg_returns hP hb hs hready.1 hpos hready.2.1
  | memImm m imm => exact getExprFromMemImm_returns hP hb hs hready.1 hpos imm hv

omit hs form hn in
include hP hb hv in
/-- An operand that does not depend on the input is the constant that it is. -/
theorem fixRegExpr_none_builds {r : Reg}
    (hnot : ∀ k ∈ (Operand.reg r).places T, ¬ Symbolic (T.peek s) k) :
    Builds σ exactly (T.fixRegExpr none r)
      (Expresses (T.pin.regSize r * 8) ((Operand.reg r).bv T (T.peek s))) :=
  (Total.yields (fixRegExpr_builds hP hb r none)
    (fixRegExpr_completes hP hb r _ hv none hnot)).mono fun _ h => h.2

omit hs form hn in
include hb hv in
theorem fixMemExpr_none_builds {addr : Addr} {n : Nat} (hpos : 0 < n)
    (hnot : ∀ k ∈ (Operand.mem addr n).places T, ¬ Symbolic (T.peek s) k) :
    Builds σ exactly (T.fixMemExpr none addr n)
      (Expresses (n * 8) ((Operand.mem addr n).bv T (T.peek s))) :=
  (Total.yields (fixMemExpr_builds hb addr hpos none)
    (fixMemExpr_completes hb addr hpos _ hv none hnot)).mono fun _ h => h.2

variable {s₁ : Shadow} {pair : Option (Expr × Expr)} (h₁ : T.Aged s s₁)
  (hpair : T.OrEmpty (T.peek s₁) form.sources (CarryGiven T (T.peek s) form) pair)
include hP hb hv hn h₁ hpair

theorem fixDst_builds : Builds σ exactly (form.fixDst T (pair.map Prod.fst))
    (Expresses (form.dst.size T * 8) (form.dstBv T (T.peek s))) := by
  have hpos := carry_size_pos form hn
  cases pair with
  | some x => cases form <;> exact .ret hpair.1
  | none =>
      have hnot := fun k hk => h₁.fades.not_symbolic (hpair form.dst List.mem_cons_self k hk)
      cases form with
      | regReg | regImm | regMem => exact fixRegExpr_none_builds hP hb hv hnot
      | memReg | memImm => exact fixMemExpr_none_builds hb hv hpos hnot

theorem fixSrc_builds : Builds σ exactly (form.fixSrc T (pair.map Prod.snd))
    (Expresses (form.dst.size T * 8) (form.srcBv T (T.peek s))) := by
  have hpos := carry_size_pos form hn
  cases pair with
  | some x => cases form <;> exact .ret hpair.2
  | none =>
      have hnot (o : Operand Reg) (ho : form.src = some o) :
          ∀ k ∈ o.places T, ¬ Symbolic (T.peek s) k := fun k hk =>
        h₁.fades.not_symbolic (hpair o (List.mem_cons_of_mem _ (by simp [ho])) k hk)
      have himm (imm : Addr) {w : Nat} (hw : 0 < w) :
          Builds σ exactly (T.fixImmExpr none imm w)
            (Expresses w fun _ => BitVec.ofNat w imm.toNat) := by
        rw [fixImmExpr, hb]
        exact Expresses.createConstant_builds _ hw
      cases form with
      | regReg _ src | memReg _ src =>
          exact (fixRegExpr_none_builds hP hb hv (hnot _ rfl)).mono fun _ h =>
            h.setWidth (congrArg (· * 8) (hn.2 _ rfl))
      | regMem dst m =>
          have hsize : m.size = T.pin.regSize dst := hn.2 _ rfl
          exact (fixMemExpr_none_builds hb hv (hsize ▸ hpos) (hnot _ rfl)).mono fun _ h =>
            h.setWidth (congrArg (· * 8) hsize)
      | regImm _ imm | memImm _ imm => exact himm imm (Nat.mul_pos hpos (by decide))

omit hpair h₁ in
include hs in
/-- The three operands: nothing at all, or expressions of them. -/
theorem carryOperands_achieves (hready : form.Ready T s) (hc : T.CarryBefore σ ρ s.eflags c) :
    Achieves (body σ) exactly (form.operands T) s fun x s' _ => T.Aged s s' ∧
      (x = none → T.Empty (T.peek s') form.sources ∧ s.eflags.isValid .b = false) ∧
      ∀ y, x = some y → CarryGiven T (T.peek s) form (y.1, y.2.1) ∧
        Denotes (· = ρ) (form.dst.size T * 8)
          (fun _ => carryIn _ (T.carryUsed s.eflags c)) y.2.2 := by
  have hpos : 0 < form.dst.size T * 8 := Nat.mul_pos (carry_size_pos form hn) (by decide)
  rw [form.operands_eq, hn.bits_eq]
  refine (computeCfAsExpr_achieves hb hpos hc).bind fun cf s₀ _ ⟨heq, hnone, hsome⟩ => ?_
  subst heq
  refine ((carryPair_returns hP hb hs hv form hn hready).achieves
    (carryPair_fetches hP hb hs hv form hn)).bind fun pair s₁ _ ⟨h₁, hpair⟩ => ?_
  have hcf : Builds σ exactly (T.fixCfExpr cf (form.dst.size T * 8))
      (Denotes (· = ρ) (form.dst.size T * 8) fun _ => carryIn _ (T.carryUsed s₀.eflags c)) := by
    cases cf with
    | some e => exact .ret (hsome e rfl)
    | none =>
        rw [fixCfExpr, carryUsed, if_neg (by simp [hnone rfl]), hb]
        exact (Expresses.createConstant_builds _ hpos).mono fun _ h => h.at ρ
  refine Achieves.lift (fixThird_carries (fixDst_builds hP hb hv form hn h₁ hpair)
    (fixSrc_builds hP hb hv form hn h₁ hpair) hcf) fun x ⟨hempty, hfound⟩ =>
      ⟨h₁, fun hx => ?_, fun y hy => ?_⟩
  · obtain ⟨rfl, rfl⟩ := hempty hx
    exact ⟨hpair, hnone rfl⟩
  · obtain ⟨hd, hs, hc⟩ := hfound y hy
    exact ⟨⟨hd, hs⟩, hc⟩

end Operands

/-! ### The handlers -/

/-- What is recorded is right: the result and the two flags that depend on the carry. -/
structure CarryRecorded (σ : Session) (ρ : Input) (k : CarryKind) {n : Nat} (d s : BitVec n)
    (c : Bool) (e : Eflags) : Prop where
  result : ∃ r, (e.operations k.op).result = some r ∧ Denotes (· = ρ) n (fun _ => k.value d s c) r
  carry : e.Reports σ ρ .cf (k.carry d s c)
  overflow : e.Reports σ ρ .of (k.overflow d s c)

variable {k : CarryKind} {d s₂ : BitVec n} {u : Bool}

/-- The operation that is set with `u` as the carry. -/
theorem carryRecorded_iff (hn : 8 ≤ n) {fs : FlagSet} (hfs : fs.kind = k.op)
    (hp : Performs ρ fs (k.operation d s₂ u)) {r : Expr} (hr : fs.result = some r)
    (hd : Denotes (· = ρ) n (fun _ => k.kind.apply (k.kind.apply d (carryIn n u)) s₂) r)
    (e : Eflags) :
    CarryRecorded σ ρ k d s₂ c (e.set fs.kind fs.result fs.dst fs.src) ↔
      u = c ∧ (c = true → ¬ k.Wraps d) := by
  have hop : ((e.set fs.kind fs.result fs.dst fs.src).operations k.op).result = some r := by
    simp [Eflags.set, Eflags.validate, ← hfs, FlagOperation.set, hr]
  have hcf : ∃ v, (k.operation d s₂ u).flag .cf = some v := by cases k <;> exact ⟨_, rfl⟩
  have hof : ∃ v, (k.operation d s₂ u).flag .of = some v := by cases k <;> exact ⟨_, rfl⟩
  obtain ⟨cf, hcf⟩ := hcf
  obtain ⟨of, hof⟩ := hof
  have hcfr : (e.set fs.kind fs.result fs.dst fs.src).Reports σ ρ .cf cf := hp.reports hcf e
  have hofr : (e.set fs.kind fs.result fs.dst fs.src).Reports σ ρ .of of := hp.reports hof e
  constructor
  · intro h
    obtain ⟨r', hr', hd'⟩ := h.result
    obtain rfl := Option.some.inj (hop.symm.trans hr')
    have huc : u = c :=
      (k.value_eq_iff d s₂ u c (by omega)).1 ((hd.bv ρ rfl).symm.trans (hd'.bv ρ rfl))
    subst huc
    refine ⟨rfl, (k.flags_iff d s₂ u (by omega)).1 ⟨?_, ?_⟩⟩
    · rw [hcf, hcfr.unique h.carry]
    · rw [hof, hofr.unique h.overflow]
  · rintro ⟨rfl, hwraps⟩
    obtain ⟨hc, ho⟩ := (k.flags_iff d s₂ u (by omega)).2 hwraps
    refine ⟨⟨r, hop, hd.congr fun _ _ => ?_⟩, ?_, ?_⟩
    · exact (k.value_eq_iff d s₂ u u (by omega)).2 rfl
    · exact Option.some.inj (hcf.symm.trans hc) ▸ hcfr
    · exact Option.some.inj (hof.symm.trans ho) ▸ hofr

section Handlers

variable (hP : T.pin.Documented) (hb : T.builder = SymbolicExprBuilder.chain) (hs : s.WellFormed)
  (hv : T.Consistent σ.input (T.peek s)) (form : CarryForm Reg) (hn : form.Sized T)
  (hready : form.Ready T s) (k : CarryKind) (hc : T.CarryBefore σ ρ s.eflags c)
include hP hb hs hv hn hready hc

/-- What is recorded is right if the carry that is used is, and does not wrap the
destination around. -/
theorem carry_used_iff :
    Achieves (body σ) exactly (form.handler T k.kind) s fun _ s' _ =>
      (T.Idle (T.peek s) (T.peek s') form.sources ∧ s'.eflags = s.eflags.invalidate k.op ∧
        s.eflags.isValid .b = false) ∨
      (CarryRecorded σ ρ k (form.dstBv T (T.peek s) ρ) (form.srcBv T (T.peek s) ρ) c s'.eflags ↔
        T.carryUsed s.eflags c = c ∧ (c = true → ¬ k.Wraps (form.dstBv T (T.peek s) ρ))) := by
  have hsize := hn.1
  simp only [List.mem_cons, List.not_mem_nil, or_false] at hsize
  have h8 : 8 ≤ form.dst.size T * 8 := by omega
  have hkind : getOpKindBinary k.kind = (pure k.op : Handler Reg OpKind) := by cases k <;> rfl
  rw [form.handler_eq, instrumentCarry, if_pos (by cases k <;> simp [CarryKind.kind]), hkind]
  refine Achieves.bind (P := fun op s' _ => op = k.op ∧ s' = s) (.ret ⟨rfl, rfl⟩) ?_
  rintro _ s₀ _ ⟨rfl, rfl⟩
  refine (carryOperands_achieves hP hb hs hv form hn hready hc).bind ?_
  rintro (_ | ⟨dst, src, cf⟩) s₁ _ ⟨h₁, hnone, hsome⟩
  · obtain ⟨hempty, hvalid⟩ := hnone rfl
    refine (onEflags_achieves _).mono fun _ s' _ hs' => ?_
    rw [hs', h₁.eflags]
    exact .inl ⟨⟨h₁.fades, hempty⟩, rfl, hvalid⟩
  obtain ⟨⟨hdst, hsrc⟩, hcf⟩ := hsome _ rfl
  have hdst := hdst.at ρ
  have hsrc := hsrc.at ρ
  have hbin {l r : Expr} {v w : BitVec (form.dst.size T * 8)}
      (hl : Denotes (· = ρ) _ (fun _ => v) l)
      (hr : Denotes (· = ρ) _ (fun _ => w) r) :
        Builds σ exactly (T.builder.createBinaryExpr k.kind l r)
        (Denotes (· = ρ) _ fun _ => k.kind.apply v w) := by
    rw [hb]
    exact SoundOn.binary (P := fun c => c.isSDiv = false) (sound_at σ ρ) (by cases k <;> rfl)
      (by cases k <;> rfl) hl hr
  have hdo : Achieves (body σ) exactly (T.doCarry k.kind k.op dst src cf) s₁ fun res s' _ =>
      res.IsBV (form.dst.size T * 8) ∧ s₁.memory.SamePages s'.memory ∧
        (CarryRecorded σ ρ k (form.dstBv T (T.peek s₀) ρ) (form.srcBv T (T.peek s₀) ρ) c s'.eflags ↔
          T.carryUsed s₀.eflags c = c ∧ (c = true → ¬ k.Wraps (form.dstBv T (T.peek s₀) ρ))) := by
    refine Achieves.lift_bind (hbin hdst hcf) fun dst' hdst' => ?_
    refine Achieves.lift_bind (hbin hdst' hsrc) fun res hres => onEflags_bind ?_
    have hperf : Performs ρ ⟨k.op, some res, some dst', some src⟩
        (k.operation (form.dstBv T (T.peek s₀) ρ) (form.srcBv T (T.peek s₀) ρ)
          (T.carryUsed s₀.eflags c)) := by
      cases k with
      | adc => exact .add h8 hres hdst' hsrc
      | sbb => exact .sub h8 hres hdst' hsrc
    exact .ret ⟨hres.isBV, .refl _, carryRecorded_iff h8 rfl hperf rfl hres _⟩
  refine hdo.bind fun res s₂ _ ⟨hres, hpages, hrec⟩ => ?_
  have hwritable : T.Writable s₂ form.dst := hready.writable.of_samePages (h₁.pages.trans hpages)
  have hset : Achieves (body σ) exactly (form.dst.set T (some res)) s₂ fun _ s' _ =>
      s'.eflags = s₂.eflags :=
    (set_returns hP hb hwritable hres).achieves (set_keepsEflags form.dst (some res) s₂)
  exact hset.mono fun _ s' _ heq => .inr (heq ▸ hrec)

end Handlers

open X86Reg (process shadow)

/-- `ADC AL, CL`. -/
def adcForm : CarryForm X86Reg :=
  .regReg .al .cl

/-- Of the registers, the one of the flags has bit 1 set, and no other bit. -/
def flagsBitOne : Process X86Reg :=
  { process with context := fun r i => if r = .rflags ∧ i = 0 then 2 else 0 }

theorem flagsBitOne_consistent (cells : List Nat) :
    flagsBitOne.Consistent quietSession.input (flagsBitOne.peek (shadow cells)) := by
  intro k e he
  have hread : e = .read 0 := X86Reg.peek_shadow he
  have hval : e.value quietSession.input = 0 := hread ▸ rfl
  rw [hval]
  cases k with
  | mem addr => rfl
  | reg f i =>
      have hcontext : flagsBitOne.context f i = 0 := by
        refine if_neg fun ⟨hf, hi⟩ => ?_
        subst hf hi
        exact nomatch (show flagsBitOne.peek (shadow cells) (.reg .rflags 0) =
          none from rfl).symm.trans he
      exact (congrArg BitVec.toNat hcontext).symm

end Process

end Qsym
