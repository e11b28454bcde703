import Qsym.Bits.Signed
import Qsym.Instrument.Result

/-!
# Qsym.Instrument.Multiply

The carry and the overflow after multiplications. Both are taken from one comparison of the
recorded product with the extension of its low half (`halfExtends`). It holds where the
flags of the machine are clear, so the polarity is the wrong one; the signed forms with one
or two operands extend the low half of a signed product with zeros; and the forms with an
immediate record a product that is as wide as the operands, so it is a quarter of the full
product that is extended.
-/

namespace X86

open Qsym

variable {n w : Nat}

/-- The product in twice the width. -/
def fullProduct (k : ExtKind) (a b : BitVec n) : BitVec (n * 2) :=
  k.apply (n * 2) a * k.apply (n * 2) b

/-- The carry and the overflow: the full product is not the extension of its low half. -/
def mulFlag (k : ExtKind) (a b : BitVec n) : Bool :=
  k.apply (n * 2) ((fullProduct k a b).setWidth n) != fullProduct k a b

/-- The multiplications: `MUL`, `IMUL` with one or two operands, and with an immediate. -/
inductive MulKind
  | mul | imul | imulImm
  deriving DecidableEq, Repr

/-- The value is the extension of its low half. -/
def halfExtends (k : ExtKind) (v : BitVec w) : Bool :=
  k.apply w (v.setWidth (w / 2)) == v

namespace MulKind

/-- How the operands count. -/
def ext : MulKind → ExtKind
  | mul => .zext
  | imul | imulImm => .sext

/-- What is computed for the two flags. -/
def recorded : MulKind → BitVec n → BitVec n → Bool
  | mul, a, b => halfExtends .zext (fullProduct .zext a b)
  | imul, a, b => halfExtends .zext (fullProduct .sext a b)
  | imulImm, a, b => halfExtends .sext (a * b)

/-- The operands for which the flags that are computed are those of the machine. -/
def Right : MulKind → BitVec n → BitVec n → Prop
  | mul, _, _ => False
  | imul, a, b =>
      -2 ^ (n - 1) ≤ a.toInt * b.toInt ∧ a.toInt * b.toInt < 0 ∨
        2 ^ (n - 1) ≤ a.toInt * b.toInt ∧ a.toInt * b.toInt < 2 ^ n
  | imulImm, a, b =>
      Bits.InRange (n / 2) ((a.toInt * b.toInt).bmod (2 ^ n)) ↔
        ¬ Bits.InRange n (a.toInt * b.toInt)

end MulKind

/-! ### Extensions of a low half -/

theorem setWidth_setWidth_eq_iff (h : n ≤ w) (v : BitVec w) :
    (v.setWidth n).setWidth w = v ↔ v.toNat < 2 ^ n := by
  have hlt := Nat.pow_le_pow_right Nat.two_pos h
  rw [← BitVec.toNat_inj, BitVec.toNat_setWidth, BitVec.toNat_setWidth,
    Nat.mod_eq_of_lt (Nat.lt_of_lt_of_le (Nat.mod_lt _ (Nat.two_pow_pos n)) hlt)]
  exact ⟨fun heq => heq ▸ Nat.mod_lt _ (Nat.two_pow_pos n), Nat.mod_eq_of_lt⟩

theorem signExtend_setWidth_eq_iff (hn : 0 < n) (h : n ≤ w) (v : BitVec w) :
    (v.setWidth n).signExtend w = v ↔ Bits.InRange n v.toInt := by
  rw [← BitVec.toInt_inj, BitVec.toInt_signExtend_of_le h]
  have hlow := Bits.inRange_toInt (v.setWidth n)
  constructor
  · intro heq
    rwa [← heq]
  · intro hv
    -- the two differ by a multiple of `2 ^ n`, and both are integers of `n` bits
    have hdvd := Bits.dvd_toInt_setWidth h v
    have hpow := Bits.two_pow_eq hn
    have hpos : (0 : Int) < 2 ^ (n - 1) := by positivity
    obtain ⟨h₁, h₂⟩ := hlow
    obtain ⟨h₃, h₄⟩ := hv
    rw [hpow] at hdvd
    have hs := Bits.eq_of_dvd_of_range hpos hdvd (by omega) (by omega)
    omega

theorem toNat_fullProduct (a b : BitVec n) : (fullProduct .zext a b).toNat = a.toNat * b.toNat := by
  have hle : n ≤ n * 2 := by omega
  have hlt : a.toNat * b.toNat < 2 ^ (n * 2) := by
    rw [Nat.mul_two, Nat.pow_add]
    exact Nat.mul_lt_mul'' a.isLt b.isLt
  simp only [fullProduct, ExtKind.apply, BitVec.toNat_mul, BitVec.toNat_setWidth_of_le hle]
  exact Nat.mod_eq_of_lt hlt

theorem toInt_fullProduct (hn : 0 < n) (a b : BitVec n) :
    (fullProduct .sext a b).toInt = a.toInt * b.toInt := by
  have hle : n ≤ n * 2 := by omega
  have hlow : -(2 ^ (n * 2 - 2)) ≤ a.toInt * b.toInt := BitVec.le_toInt_mul_toInt
  have hhigh : a.toInt * b.toInt ≤ 2 ^ (n * 2 - 2) := BitVec.toInt_mul_toInt_le
  have hpow : (2 : Int) ^ (n * 2) = 2 ^ (n * 2 - 2) * 4 := by
    rw [show n * 2 = n * 2 - 2 + 2 by omega, pow_add]
    rfl
  have hpos : (0 : Int) < 2 ^ (n * 2 - 2) := by positivity
  simp only [fullProduct, ExtKind.apply, BitVec.toInt_mul, BitVec.toInt_signExtend_of_le hle]
  refine Int.bmod_eq_of_le_mul_two ?_ ?_ <;> push_cast <;> omega

theorem halfExtends_zext (v : BitVec w) : halfExtends .zext v = true ↔ v.toNat < 2 ^ (w / 2) := by
  rw [halfExtends, beq_iff_eq]
  exact setWidth_setWidth_eq_iff (by omega) v

theorem halfExtends_sext (hw : 2 ≤ w) (v : BitVec w) :
    halfExtends .sext v = true ↔ Bits.InRange (w / 2) v.toInt := by
  rw [halfExtends, beq_iff_eq]
  exact signExtend_setWidth_eq_iff (by omega) (by omega) v

theorem mulFlag_zext (a b : BitVec n) : mulFlag .zext a b = true ↔ ¬ a.toNat * b.toNat < 2 ^ n := by
  rw [mulFlag, bne_iff_ne, ← toNat_fullProduct]
  exact not_congr (setWidth_setWidth_eq_iff (by omega) _)

theorem mulFlag_sext (hn : 0 < n) (a b : BitVec n) :
    mulFlag .sext a b = true ↔ ¬ Bits.InRange n (a.toInt * b.toInt) := by
  rw [mulFlag, bne_iff_ne, ← toInt_fullProduct hn]
  exact not_congr (signExtend_setWidth_eq_iff hn (by omega) _)

namespace MulKind

variable (k : MulKind) (a b : BitVec n)

theorem recorded_mul : recorded .mul a b = !mulFlag .zext a b := by
  have hhalf := halfExtends_zext (fullProduct .zext a b)
  rw [toNat_fullProduct, Nat.mul_div_cancel n Nat.two_pos] at hhalf
  rw [Bool.eq_iff_iff, recorded, hhalf, Bool.not_eq_true', ← Bool.not_eq_true,
    mulFlag_zext, not_not]

theorem recorded_imul (hn : 0 < n) : recorded .imul a b = true ↔
    0 ≤ a.toInt * b.toInt ∧ a.toInt * b.toInt < 2 ^ n := by
  have hhalf := halfExtends_zext (fullProduct .sext a b)
  have hlt := (fullProduct .sext a b).isLt
  have hpow : (2 : Int) ^ n ≤ 2 ^ (n * 2 - 1) := pow_le_pow_right₀ (by decide) (by omega)
  rw [Nat.mul_div_cancel n Nat.two_pos] at hhalf
  rw [recorded, hhalf, ← toInt_fullProduct hn]
  have hrange := Bits.inRange_toInt (fullProduct .sext a b)
  have hsplit := Bits.two_pow_eq (n := n * 2) (by omega)
  have hcond := BitVec.toInt_eq_toNat_cond (fullProduct .sext a b)
  zify at *
  obtain ⟨h₁, h₂⟩ := hrange
  split at hcond <;> omega

/-- Where what is computed is right. -/
theorem recorded_eq_iff (hn : 2 ≤ n) : k.recorded a b = mulFlag k.ext a b ↔ k.Right a b := by
  cases k with
  | mul =>
      rw [recorded_mul, ext, Right]
      simp
  | imul =>
      have hpow := Bits.two_pow_eq (n := n) (by omega)
      have hpos : (0 : Int) < 2 ^ (n - 1) := by positivity
      rw [Bool.eq_iff_iff, recorded_imul a b (by omega), ext, mulFlag_sext (by omega),
        Right, Bits.InRange]
      omega
  | imulImm =>
      rw [Bool.eq_iff_iff, recorded, halfExtends_sext hn, ext, mulFlag_sext (by omega), Right,
        BitVec.toInt_mul]

end MulKind

end X86

namespace Qsym

open Procedure X86

/-- The handlers of `MUL` and `IMUL`, by their operands. -/
inductive MulForm (Reg : Type)
  | mulReg (src regL regH : Reg)
  | mulMem (m : MemArg Reg) (regL regH : Reg)
  | imulReg (src : Reg)
  | imulMem (m : MemArg Reg)
  | imulRegReg (dst src : Reg)
  | imulRegMem (dst : Reg) (m : MemArg Reg)
  | imulRegRegImm (dst src : Reg) (imm : Addr)
  | imulRegMemImm (dst : Reg) (m : MemArg Reg) (imm : Addr)

namespace MulForm

open Handler

variable {Reg : Type} [DecidableEq Reg] (T : Process Reg)

def handler : MulForm Reg → Handler Reg Unit
  | mulReg src regL regH => T.instrumentMulReg src regL regH
  | mulMem m regL regH => T.instrumentMulMem m regL regH
  | imulReg src => T.instrumentIMulReg src
  | imulMem m => T.instrumentIMulMem m
  | imulRegReg dst src => T.instrumentIMulRegReg dst src
  | imulRegMem dst m => T.instrumentIMulRegMem dst m
  | imulRegRegImm dst src imm => T.instrumentIMulRegRegImm dst src imm
  | imulRegMemImm dst m imm => T.instrumentIMulRegMemImm dst m imm

def kind : MulForm Reg → MulKind
  | mulReg .. | mulMem .. => .mul
  | imulReg .. | imulMem .. | imulRegReg .. | imulRegMem .. => .imul
  | imulRegRegImm .. | imulRegMemImm .. => .imulImm

def operands : MulForm Reg → Handler Reg (Option (Expr × Expr))
  | mulReg src regL _ => T.getExprFromRegReg src regL
  | mulMem m regL _ => T.getExprFromMemReg m regL
  | imulReg src => T.getExprFromRegReg src (T.pin.getAx (T.pin.regSize src))
  | imulMem m => T.getExprFromMemReg m (T.pin.getAx m.size)
  | imulRegReg dst src => T.getExprFromRegReg src dst
  | imulRegMem dst m => T.getExprFromMemReg m dst
  | imulRegRegImm _ src imm => T.getExprFromRegImm src imm
  | imulRegMemImm _ m imm => T.getExprFromMemImm m imm

/-- The operand that is read first. -/
def first : MulForm Reg → Operand Reg
  | mulReg src _ _ | imulReg src | imulRegReg _ src | imulRegRegImm _ src _ => .reg src
  | mulMem m _ _ | imulMem m | imulRegMem _ m | imulRegMemImm _ m _ => .mem m.addr m.size

/-- The registers of the product; the high one may be missing. -/
def regL : MulForm Reg → Reg
  | mulReg _ regL _ | mulMem _ regL _ => regL
  | imulReg src => T.pin.getAx (T.pin.regSize src)
  | imulMem m => T.pin.getAx m.size
  | imulRegReg dst _ | imulRegMem dst _ | imulRegRegImm dst .. | imulRegMemImm dst .. => dst

def regH : MulForm Reg → Reg
  | mulReg _ _ regH | mulMem _ _ regH => regH
  | imulReg src => T.pin.getDx (T.pin.regSize src)
  | imulMem m => T.pin.getDx m.size
  | imulRegReg .. | imulRegMem .. | imulRegRegImm .. | imulRegMemImm .. => T.pin.regInvalid

/-- The other operand, unless it is an immediate. -/
def other (form : MulForm Reg) : Option (Operand Reg) :=
  if form.kind = .imulImm then none else some (.reg (form.regL T))

/-- The operands that are read. -/
def sources (form : MulForm Reg) : List (Operand Reg) :=
  form.first :: (form.other T).toList

/-- What is let go of if nothing depends on the input. -/
def op (form : MulForm Reg) : OpKind :=
  if form.kind = .imulImm then .smul else .umul

/-- The registers have the size of the operand. -/
def Sized (form : MulForm Reg) : Prop :=
  form.first.size T ∈ [1, 2, 4, 8] ∧ match form with
    | mulReg _ regL regH | mulMem _ regL regH =>
        T.pin.regSize regL = form.first.size T ∧ T.pin.regSize regH = form.first.size T
    | imulReg _ | imulMem _ => True
    | imulRegReg dst _ | imulRegMem dst _ | imulRegRegImm dst _ _ | imulRegMemImm dst _ _ =>
        T.pin.regSize dst = form.first.size T

/-- The operands can be read, and the registers can be written. -/
def Ready (form : MulForm Reg) : Prop :=
  (match form with
    | mulReg src _ _ | imulReg src | imulRegReg _ src | imulRegRegImm _ src _ => T.Tracked src
    | mulMem m _ _ | imulMem m | imulRegMem _ m | imulRegMemImm _ m _ => T.Addressed m) ∧
  T.Tracked (form.regL T) ∧ (form.regH T ≠ T.pin.regInvalid → T.Tracked (form.regH T))

section

variable (v : ShadowMap Reg) (form : MulForm Reg) (ρ : Input)

def firstBv : BitVec (form.first.size T * 8) :=
  form.first.bv T v ρ

def otherBv : BitVec (form.first.size T * 8) :=
  match form with
  | imulRegRegImm _ _ imm | imulRegMemImm _ _ imm => BitVec.ofNat _ imm.toNat
  | form => ((Operand.reg (form.regL T)).bv T v ρ).setWidth _

end

variable {T} {form : MulForm Reg}

/-- The one way to multiply, or the other. -/
theorem handler_eq : form.handler T =
    if form.kind = .imulImm then T.instrumentIMulImm (form.operands T) (form.regL T)
    else T.instrumentMul (form.operands T) (form.regL T) (form.regH T) (form.first.size T * 8)
      (form.kind = .imul) := by
  cases form <;> rfl

omit [DecidableEq Reg] in
theorem Sized.pos (h : form.Sized T) : 0 < form.first.size T := by
  have hfirst := h.1
  simp only [List.mem_cons, List.not_mem_nil, or_false] at hfirst
  omega

theorem Sized.regL (hN : T.pin.Named) (h : form.Sized T) :
    T.pin.regSize (form.regL T) = form.first.size T := by
  cases form with
  | mulReg | mulMem => exact h.2.1
  | imulReg | imulMem => exact hN.getAx _ h.1
  | _ => exact h.2

theorem Sized.regH (hN : T.pin.Named) (h : form.Sized T) (hH : form.regH T ≠ T.pin.regInvalid) :
    T.pin.regSize (form.regH T) = form.first.size T := by
  cases form with
  | mulReg | mulMem => exact h.2.2
  | imulReg | imulMem => exact hN.getDx _ h.1
  | _ => exact absurd rfl hH

end MulForm

namespace Process

open Handler Stateful FlagOperation

variable {Reg : Type} [DecidableEq Reg] {T : Process Reg} {σ : Session} {ρ : Input}
variable {ok : MethodCall → Prop} {n w : Nat}

/-! ### What is recorded -/

section Builds

variable {b : ExprBuilder} (hb : Sound σ ok (· = ρ) b)

include hb

theorem mulOF_builds {op : FlagOperation} {e : Expr} {v : BitVec w} (hop : op.result = some e)
    (he : Denotes (· = ρ) w (fun _ => v) e) (hw : 2 ≤ w) (k : ExtKind) :
    Builds σ ok (op.mulOF b k) (Decides (· = ρ) fun _ => halfExtends k v) := by
  have hb : SoundOn (fun c => c.isSDiv = false) σ ok (· = ρ) b := hb
  rw [mulOF, hop]
  simp only [deref_some, Program.bind_eq, Program.ret_bind, he.bits]
  refine Total.bind (hb.extract (i := 0) (w := w / 2) rfl he (by omega) (by omega)) fun l hl => ?_
  refine Total.bind (hb.ext k rfl hl (by omega)) fun x hx => ?_
  refine (hb.compare .equal rfl hx he).mono fun y hy => hy.congr fun _ _ => ?_
  rw [← BitVec.setWidth_eq_extractLsb' (by omega)]
  rfl

end Builds

theorem extendToDouble_expresses {e : Expr} {v : Input → BitVec n} (he : Expresses n v e)
    (sign : Bool) : Builds σ exactly (SymbolicExprBuilder.chain.extendToDouble e sign)
      (Expresses (n * 2) fun ρ => (if sign then ExtKind.sext else ExtKind.zext).apply
        (n * 2) (v ρ)) := by
  rw [ExprBuilder.extendToDouble, he.bits]
  cases sign with
  | true => exact he.ext_builds .sext (by omega)
  | false => exact he.ext_builds .zext (by omega)

/-- The flag is known, and its expression has the value `v` if and only if `c`. -/
structure RecordedIff (σ : Session) (ρ : Input) (e : Eflags) (f : Eflag) (v : Bool) (c : Prop) :
    Prop where
  known : e.validSet.has f = true
  built : Builds σ (FoldsExactly (· = ρ)) (e.computeFlag SymbolicExprBuilder.chain f) fun x =>
    ∃ y, x = some y ∧ y.IsBool ∧ (y.truth ρ = v ↔ c)

/-- Both flags are known, and have the value `v` if and only if `c`. -/
structure MulFlags (σ : Session) (ρ : Input) (e : Eflags) (v : Bool) (c : Prop) : Prop where
  carry : RecordedIff σ ρ e .cf v c
  overflow : RecordedIff σ ρ e .of v c

/-- A product of either kind that was just set. -/
theorem mulFlags_set {k : ExtKind} {kind : OpKind} (hkind : kind = match k with
      | .zext => .umul
      | .sext => .smul) {v : BitVec w} (hw : 2 ≤ w) {res : Expr}
    (hres : Denotes (· = ρ) w (fun _ => v) res) (dst src : Option Expr) (e : Eflags) {u : Bool} :
    MulFlags σ ρ (e.set kind (some res) dst src) u (halfExtends k v = u) := by
  have hflag {f : Eflag} (hdef : kind.defines f = true)
      (hcompute : (FlagOperation.set kind (some res) dst src).compute
        SymbolicExprBuilder.chain kind f =
        some ((FlagOperation.set kind (some res) dst src).mulOF SymbolicExprBuilder.chain k)) :
      RecordedIff σ ρ (e.set kind (some res) dst src) f u (halfExtends k v = u) := by
    have htouch : kind.touches f = true := by rw [OpKind.touches_eq, hdef, Bool.true_or]
    refine ⟨by simp [Eflags.has_set, hdef], ?_⟩
    rw [Eflags.computeFlag_set _ htouch hcompute]
    refine Total.bind (mulOF_builds (chain_sound σ (· = ρ)) rfl hres hw k) fun x hx => ?_
    exact Total.ret ⟨x, rfl, hx.isBool, by rw [hx.truth ρ rfl]⟩
  subst hkind
  cases k with
  | zext => exact ⟨hflag rfl rfl, hflag rfl rfl⟩
  | sext => exact ⟨hflag rfl rfl, hflag rfl rfl⟩

/-! ### The handlers -/

/-- The operands as they are. -/
def MulGiven (T : Process Reg) (v : ShadowMap Reg) (form : MulForm Reg) (x : Expr × Expr) : Prop :=
  Expresses (form.first.size T * 8) (form.firstBv T v) x.1 ∧
    Expresses (form.first.size T * 8) (form.otherBv T v) x.2

/-- What a multiplication comes to: nothing that depends on the input, and flags that are let
go of, or flags that have the value `v` where `c`. -/
def MulDone (σ : Session) (T : Process Reg) (form : MulForm Reg) (s s' : Shadow)
    (v : BitVec (form.first.size T * 8) → BitVec (form.first.size T * 8) → Bool)
    (c : BitVec (form.first.size T * 8) → BitVec (form.first.size T * 8) → Prop) : Prop :=
  (∀ o ∈ form.sources T, ∀ k ∈ o.places T, ¬ Symbolic (T.peek s) k) ∧
      s'.eflags = s.eflags.invalidate form.op ∨
    ∀ ρ, MulFlags σ ρ s'.eflags (v (form.firstBv T (T.peek s) ρ) (form.otherBv T (T.peek s) ρ))
      (c (form.firstBv T (T.peek s) ρ) (form.otherBv T (T.peek s) ρ))

section Handlers

variable {s : Shadow} (hP : T.pin.Documented) (hN : T.pin.Named)
  (hb : T.builder = SymbolicExprBuilder.chain) (hs : s.WellFormed)
  (hv : T.Consistent σ.input (T.peek s)) (form : MulForm Reg) (hn : form.Sized T)
  (hready : form.Ready T)

include hP hb hs hv hn hready in
theorem mulOperands_returns : Returns (body σ) exactly (form.operands T) s := by
  have hpos := hn.pos
  cases form with
  | mulReg | imulReg | imulRegReg => exact getExprFromRegReg_returns hP hb hs hready.1 hready.2.1
  | mulMem | imulMem | imulRegMem =>
      exact getExprFromMemReg_returns hP hb hs hready.1 hpos hready.2.1
  | imulRegRegImm _ _ imm => exact getExprFromRegImm_returns hP hb hs hready.1 imm hv
  | imulRegMemImm _ _ imm => exact getExprFromMemImm_returns hP hb hs hready.1 hpos imm hv

include hP hN hb hs hv hn in
theorem mulOperands_fetches :
    Fetches σ T (form.operands T) s (form.sources T) (MulGiven T (T.peek s) form) := by
  have hpos := hn.pos
  have hlow : T.pin.regSize (form.regL T) * 8 = form.first.size T * 8 :=
    congrArg (· * 8) (hn.regL hN)
  cases form with
  | mulReg src | imulReg src | imulRegReg _ src =>
      exact (getExprFromRegReg_fetches hP hb hs hv src _).mono fun x hx =>
        ⟨hx.1, hx.2.setWidth hlow⟩
  | mulMem m | imulMem m | imulRegMem _ m =>
      exact (getExprFromMemReg_fetches hP hb hs hv hpos _).mono fun x hx =>
        ⟨hx.1, hx.2.setWidth hlow⟩
  | imulRegRegImm _ src imm => exact getExprFromRegImm_fetches hP hb hs hv src imm
  | imulRegMemImm _ m imm => exact getExprFromMemImm_fetches hP hb hs hv hpos imm

include hP in
/-- A register that is let go of leaves the flags. -/
theorem clearExprFromReg_leaves {r : Reg} (hr : T.Tracked r) (s : Shadow) :
    Achieves (body σ) exactly (T.clearExprFromReg r) s fun _ s' _ => s'.eflags = s.eflags :=
  (clearExprFromReg_returns hr).achieves
    ((clearExprFromReg_cleared hP r).mono fun _ _ _ h => h.2.1)

include hP hb in
theorem setExprToReg_leaves {r : Reg} (hr : T.Tracked r)
    (hsize : T.pin.regSize r = form.first.size T)
    {e : Expr} (he : e.IsBV (form.first.size T * 8)) (s : Shadow) :
    Achieves (body σ) exactly (T.setExprToReg r (some e)) s fun _ s' _ => s'.eflags = s.eflags := by
  rw [← hsize] at he
  have hwrite : Returns (body σ) exactly (T.setExprToReg r (some e)) s :=
    set_returns (o := .reg r) hP hb hr he
  exact hwrite.achieves (T.setExprToReg_keepsEflags r (some e) s)

include hP hN hb hn hready in
/-- Both halves of a product. -/
theorem doMul_flags {s₁ : Shadow} {v : ShadowMap Reg} {x y : Expr}
    (hx : Expresses (form.first.size T * 8) (form.firstBv T v) x)
    (hy : Expresses (form.first.size T * 8) (form.otherBv T v) y) {k : MulKind} (hk : k ≠ .imulImm)
    (u : BitVec (form.first.size T * 8) → BitVec (form.first.size T * 8) → Bool) :
    Achieves (body σ) exactly (T.doMul (form.regL T) (form.regH T) x y (form.first.size T * 8)
      (k = .imul)) s₁ fun _ s' _ => ∀ ρ, MulFlags σ ρ s'.eflags
        (u (form.firstBv T v ρ) (form.otherBv T v ρ))
        (k.recorded (form.firstBv T v ρ) (form.otherBv T v ρ) =
          u (form.firstBv T v ρ) (form.otherBv T v ρ)) := by
  have hpos := hn.pos
  have hext : (if decide (k = .imul) then ExtKind.sext else ExtKind.zext) = k.ext := by
    cases k <;> first | rfl | exact absurd rfl hk
  have hrecorded (a b : BitVec (form.first.size T * 8)) :
      k.recorded a b = halfExtends .zext
        (k.ext.apply (form.first.size T * 8 * 2) a * k.ext.apply
          (form.first.size T * 8 * 2) b) := by
    cases k <;> first | rfl | exact absurd rfl hk
  unfold doMul
  rw [hb]
  refine Achieves.lift_bind (extendToDouble_expresses hx _) fun l hl => ?_
  refine Achieves.lift_bind (extendToDouble_expresses hy _) fun r hr => ?_
  rw [hext] at hl hr
  refine Achieves.lift_bind (hl.binary_builds (k := .mul) nofun rfl hr) fun res hres =>
    onEflags_bind ?_
  have hflags (e : Eflags) (ρ : Input) : MulFlags σ ρ (e.set .umul (some res) (some r) (some l))
      (u (form.firstBv T v ρ) (form.otherBv T v ρ))
      (k.recorded (form.firstBv T v ρ) (form.otherBv T v ρ) =
        u (form.firstBv T v ρ) (form.otherBv T v ρ)) := by
    rw [hrecorded]
    exact mulFlags_set (k := .zext) rfl (by omega) (hres.at ρ) (some r) (some l) e
  refine Achieves.lift_bind (hres.extract_builds (i := 0) (w := form.first.size T * 8) (by omega)
    (by omega)) fun lo hlo => ?_
  refine (setExprToReg_leaves hP hb form hready.2.1 (hn.regL hN) hlo.isBV _).bind
    fun _ s₂ _ h₂ => ?_
  split
  next hH =>
      refine Achieves.lift_bind (hres.extract_builds (i := form.first.size T * 8)
        (w := form.first.size T * 8) (by omega) (by omega)) fun hi hhi => ?_
      refine (setExprToReg_leaves hP hb form (hready.2.2 hH) (hn.regH hN hH) hhi.isBV _).mono
        fun _ s' _ hs' => ?_
      rw [hs', h₂]
      exact hflags _
  next =>
      refine Achieves.ret ?_
      rw [h₂]
      exact hflags _

include hP hN hb hs hv hn hready in
/-- The two flags after the handler. -/
theorem mul_flags (u : BitVec (form.first.size T * 8) → BitVec (form.first.size T * 8) → Bool) :
    Achieves (body σ) exactly (form.handler T) s fun _ s' _ =>
      MulDone σ T form s s' u fun a b => form.kind.recorded a b = u a b := by
  have hpos := hn.pos
  have hfetch := mulOperands_fetches hP hN hb hs hv form hn
  have hreads := mulOperands_returns hP hb hs hv form hn hready
  rw [form.handler_eq]
  split
  next hk =>
      have hop : form.op = .smul := if_pos hk
      refine computing_achieves hfetch hreads (fun s₁ h₁ hidle => ?_) fun s₁ x h₁ ⟨hx, hy⟩ => ?_
      · refine (clearExprFromReg_leaves hP hready.2.1 s₁).bind fun _ s₂ _ h₂ => ?_
        refine (onEflags_achieves _).mono fun _ s' _ hs' => .inl ⟨fun o ho k hk =>
          hidle.not_symbolic ho hk, ?_⟩
        rw [hs', h₂, h₁.eflags, hop]
      · rw [hb]
        refine Achieves.lift_bind (hx.binary_builds (k := .mul) nofun rfl hy) fun res hres => ?_
        refine onEflags_bind ?_
        refine (setExprToReg_leaves hP hb form hready.2.1 (hn.regL hN) hres.isBV _).mono
          fun _ s' _ hs' => .inr fun ρ => ?_
        rw [hs', hk]
        exact mulFlags_set (k := .sext) rfl (by omega) (hres.at ρ) (some x.1) (some x.2) s₁.eflags
  next hk =>
      have hop : form.op = .umul := if_neg hk
      refine computing_achieves hfetch hreads (fun s₁ h₁ hidle => ?_) fun s₁ x h₁ ⟨hx, hy⟩ => ?_
      · have hdone {s' : Shadow} (hs' : s'.eflags = s₁.eflags.invalidate .umul) :
            MulDone σ T form s s' u fun a b => form.kind.recorded a b = u a b := by
          refine .inl ⟨fun o ho k hk => hidle.not_symbolic ho hk, ?_⟩
          rw [hs', h₁.eflags, hop]
        refine onEflags_bind ((clearExprFromReg_leaves hP hready.2.1 _).bind fun _ s₂ _ h₂ => ?_)
        split
        next hH =>
            refine (clearExprFromReg_leaves hP (hready.2.2 hH) s₂).mono fun _ s' _ hs' => ?_
            exact hdone (hs'.trans h₂)
        next => exact .ret (hdone h₂)
      · exact (doMul_flags hP hN hb form hn hready hx hy hk u).mono fun _ s' _ h => .inr h

include hP hN hb hs hv hn hready in
/-- **Multiplications.** For every form and width and all operand values, the carry and the
overflow that are recorded are those of the machine if and only if the operands are among
those of `MulKind.Right`. -/
theorem instrumentMul_flags_iff :
    Achieves (body σ) exactly (form.handler T) s fun _ s' _ =>
      MulDone σ T form s s' (mulFlag form.kind.ext) form.kind.Right := by
  have hpos := hn.pos
  have hright : (fun a b : BitVec (form.first.size T * 8) =>
      form.kind.recorded a b = mulFlag form.kind.ext a b) = form.kind.Right := by
    funext a b
    exact propext (form.kind.recorded_eq_iff a b (by omega))
  have h := mul_flags hP hN hb hs hv form hn hready (mulFlag form.kind.ext)
  rwa [hright] at h

end Handlers

open X86Reg (process shadow)

/-- `IMUL CL` of 15 by 15: 225 takes eight bits, but not with a sign. -/
theorem instrumentMul_flags_imul : ∃ s' l w',
    Runs (body quietSession) (process.instrumentIMulReg .cl (shadow [0, 16])) (freshWorld 1)
      ((), s', l) w' ∧
      MulFlags quietSession (fun _ => 15) s'.eflags (mulFlag .sext (15 : BitVec 8) 15)
        (MulKind.Right .imul (15 : BitVec 8) 15) ∧
      MulKind.Right .imul (15 : BitVec 8) 15 := by
  let form : MulForm X86Reg := .imulReg .cl
  have h := instrumentMul_flags_iff (T := process) (σ := quietSession)
    X86Reg.registers_documented X86Reg.registers_named rfl
    (X86Reg.shadow_init_wellFormed [0, 16]) (X86Reg.shadow_consistent [0, 16]) form
    ⟨by decide, trivial⟩ ⟨X86Reg.tracked (by decide), X86Reg.tracked (by decide),
      fun _ => X86Reg.tracked (by decide)⟩
  obtain ⟨_, s', l, w', hr, hdone⟩ := exists_run (n := 40) (w := freshWorld 1) h (by decide +kernel)
  have ha : form.firstBv process (process.peek (shadow [0, 16])) (fun _ => 15) = (15 : BitVec 8) :=
    BitVec.eq_of_toNat_eq (by decide +kernel)
  have hb : form.otherBv process (process.peek (shadow [0, 16])) (fun _ => 15) = (15 : BitVec 8) :=
    BitVec.eq_of_toNat_eq (by decide +kernel)
  rcases hdone with ⟨hnot, -⟩ | hflags
  · have hsym : Symbolic (process.peek (shadow [0, 16])) (.reg .rcx 0) := ⟨.read 0, rfl, by decide⟩
    exact absurd hsym (hnot _ List.mem_cons_self _ (by decide))
  · have hflags := hflags fun _ => 15
    rw [ha, hb] at hflags
    exact ⟨s', l, w', hr, hflags, .inr (by decide)⟩

/-- `MUL CL` of 2 by 2: nothing is carried, but the carry is set. -/
theorem instrumentMul_not_flags : ∃ s' l w' y w'',
    Runs (body quietSession) (process.instrumentMulReg .cl .al .dl (shadow [0, 16])) (freshWorld 1)
      ((), s', l) w' ∧
      Runs (body quietSession) (s'.eflags.computeFlag SymbolicExprBuilder.chain .cf)
        w' (some y) w'' ∧
      y.truth (fun _ => 2) ≠ mulFlag .zext (2 : BitVec 8) 2 := by
  let p : Build (Option Expr) := (process.instrumentMulReg .cl .al .dl (shadow [0, 16])).bind
    fun x => x.2.1.eflags.computeFlag SymbolicExprBuilder.chain .cf
  have hp : ((p.run (exec (body quietSession) 40) (freshWorld 1)).map
      fun x => x.1.map fun y => y.truth fun _ => 2) = some (some true) := by decide +kernel
  obtain ⟨⟨x, w''⟩, hx, hsome⟩ := Option.map_eq_some_iff.1 hp
  obtain ⟨y, rfl, htruth⟩ := Option.map_eq_some_iff.1 hsome
  obtain ⟨⟨_, s', l⟩, w', hr, hflag⟩ := Runs.bind_iff.1 ⟨40, hx⟩
  refine ⟨s', l, w', y, w'', hr, hflag, ?_⟩
  rw [htruth]
  decide

end Process

end Qsym
