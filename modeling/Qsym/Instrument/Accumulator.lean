import Qsym.Builder.SignedQuotient
import Qsym.Instrument.Result

/-!
# Qsym.Instrument.Accumulator

The registers of `MUL`, `IMUL`, `DIV` and `IDIV` with one operand. The handlers take the high
register from `getDx`, which is right for two bytes and more; for one byte it is `DL`, where
the machine uses `AH`. And a division of four bytes that does not depend on the input leaves
what was in the upper halves of the registers.
-/

namespace X86

open Qsym

variable {w : Nat}

/-- The instructions on the accumulator. -/
inductive PairOp
  | mul | imul | div | idiv
  deriving DecidableEq, Repr

namespace PairOp

def sign : PairOp → Bool
  | mul | div => false
  | imul | idiv => true

/-- How the operand is extended. -/
def ext (op : PairOp) : ExtKind :=
  if op.sign then .sext else .zext

def divides : PairOp → Bool
  | mul | imul => false
  | div | idiv => true

/-- The operations for the quotient and for the remainder. -/
def quotient (op : PairOp) : BinaryKind :=
  if op.sign then .sdiv else .udiv

def remainder (op : PairOp) : BinaryKind :=
  if op.sign then .srem else .urem

/-- The product in twice the width. -/
def product (op : PairOp) (l s : BitVec w) : BitVec (w + w) :=
  op.ext.apply (w + w) s * op.ext.apply (w + w) l

/-- The low and the high half of the product, or quotient and remainder of `h ++ l`. -/
def result (op : PairOp) (h l s : BitVec w) : BitVec w × BitVec w :=
  let x := op.ext.apply (w + w) s
  match op with
  | mul | imul => ((op.product l s).extractLsb' 0 w, (op.product l s).extractLsb' w w)
  | div => (((h ++ l).udiv x).extractLsb' 0 w, ((h ++ l).umod x).extractLsb' 0 w)
  | idiv => (((h ++ l).sdiv x).extractLsb' 0 w, ((h ++ l).srem x).extractLsb' 0 w)

variable {op : PairOp} {s : BitVec w}

theorem result_of_not_divides (hop : op.divides = false) (h l s : BitVec w) :
    op.result h l s = ((op.product l s).extractLsb' 0 w, (op.product l s).extractLsb' w w) := by
  cases op <;> first | rfl | cases hop

theorem ext_ne_zero (k : ExtKind) (hs : s ≠ 0) : k.apply (w + w) s ≠ 0 := by
  have hle : w ≤ w + w := Nat.le_add_right w w
  intro hzero
  refine hs ?_
  cases k with
  | zext =>
      apply BitVec.eq_of_toNat_eq
      have hnat := congrArg BitVec.toNat hzero
      simpa [ExtKind.apply, BitVec.toNat_setWidth_of_le hle] using hnat
  | sext =>
      apply BitVec.eq_of_toInt_eq
      have hint := congrArg BitVec.toInt hzero
      simpa [ExtKind.apply, BitVec.toInt_signExtend_of_le hle] using hint

/-- Without a division by zero the operations are those of the machine. -/
theorem result_of_divides (hop : op.divides = true) (h l : BitVec w) (hs : s ≠ 0) :
    op.result h l s =
      ((op.quotient.apply (h ++ l) (op.ext.apply (w + w) s)).extractLsb' 0 w,
        (op.remainder.apply (h ++ l) (op.ext.apply (w + w) s)).extractLsb' 0 w) := by
  cases op with
  | div =>
      have hquotient : (h ++ l).smtUDiv (ExtKind.zext.apply (w + w) s) =
          (h ++ l).udiv (ExtKind.zext.apply (w + w) s) :=
        (BitVec.smtUDiv_eq _ _).trans (if_neg (ext_ne_zero .zext hs))
      simp only [quotient, sign, Bool.false_eq_true, if_false, BinaryKind.apply, ext, hquotient]
      rfl
  | idiv =>
      have hquotient := Bits.smtSDiv_eq_sdiv (h ++ l) (ext_ne_zero .sext hs)
      simp only [quotient, sign, if_true, BinaryKind.apply, ext, hquotient]
      rfl
  | _ => cases hop

end PairOp

end X86

namespace Qsym

open Procedure X86
open SymbolicExprBuilder (chain DividesSigned)

/-! ### Quotients for one input -/

/-- The calls of runs whose signed divisions are kept for the input `ρ`. -/
def dividesAt (ρ : Input) (m : MethodCall) : Prop :=
  exactly m ∧ ∀ l r, m.call = .binary .sdiv l r → DividesSigned ρ l r

/-- A run whose calls were looked at, without signed divisions. -/
theorem safe_dividesAt {α : Type} {σ : Session} {p : Build α} {w : World} {n : Nat} {ρ : Input}
    (h : ((p.trace (execTrace (body σ) n) w).map fun x =>
      x.2.2.all fun m => foldsNothing m && !m.call.isSDiv) = some true) :
    Safe (body σ) (dividesAt ρ) p w := by
  have hsafe : Safe (body σ) (fun m => (foldsNothing m && !m.call.isSDiv) = true) p w :=
    safe_of_trace (n := n) (by simpa using h)
  intro m hm
  obtain ⟨hfolds, hnot⟩ := Bool.and_eq_true_iff.1 (hsafe m hm)
  refine ⟨exactly_of_foldsNothing hfolds, fun l r hcall => ?_⟩
  rw [hcall] at hnot
  cases hnot

/-- `e` is a trimmed bit vector with the value `w` for the input `ρ`. -/
def ExpressesAt (ρ : Input) (n : Nat) (w : BitVec n) (e : Expr) : Prop :=
  ∃ u, Expresses n u e ∧ u ρ = w

section Chain

variable {σ : Session} {ρ : Input} {l r e : Expr} {n : Nat} {u v : Input → BitVec n}

theorem extendToDouble_builds (he : Expresses n v e) (op : PairOp) :
    Builds σ exactly (chain.extendToDouble e op.sign)
      (Expresses (n + n) fun ρ => op.ext.apply (n + n) (v ρ)) := by
  have hext (k : ExtKind) : Builds σ exactly (chain.create (.ext k e (e.bits * 2)))
      (Expresses (n + n) fun ρ => k.apply (n + n) (v ρ)) := by
    rw [he.bits, Nat.mul_two]
    exact he.ext_builds k (Nat.le_add_right n n)
  cases op <;> exact hext _

theorem expressesAt_self (he : e.IsBV n) (ht : e.Trimmed) : ExpressesAt ρ n (e.bv ρ n) e :=
  ⟨fun ρ => e.bv ρ n, ⟨⟨he, fun _ _ => rfl⟩, ht⟩, rfl⟩

theorem sdiv_at (hl : Expresses n u l) (hr : Expresses n v r) :
    Builds σ (dividesAt ρ) (chain.create (.binary .sdiv l r))
      (ExpressesAt ρ n ((u ρ).smtSDiv (v ρ))) := by
  have hkept : Builds σ (dividesAt ρ) (chain.create (.binary .sdiv l r)) fun e =>
      e.IsBV n ∧ e.value ρ = (Expr.binary 0 .sdiv l r).value ρ :=
    builds_create fun hok => Total.of_true
      (SymbolicExprBuilder.createSDiv_builds σ hl.isBV hr.isBV (hok.2 l r rfl))
  have htrim : Yields (body σ) (dividesAt ρ) (chain.create (.binary .sdiv l r)) Expr.Trimmed :=
    chain_trimmed σ ⟨fun _ => trivial, hl.trimmed, hr.trimmed⟩
  refine (Total.yields hkept htrim).mono fun e ⟨⟨hbv, hval⟩, ht⟩ => ?_
  have hvalue : e.bv ρ n = (u ρ).smtSDiv (v ρ) := by
    rw [Expr.bv, hval, ← Expr.bv, Expr.bv_binary ρ 0 .sdiv hl.isBV.bits, hl.bv ρ trivial,
      hr.bv ρ trivial]
    rfl
  exact hvalue ▸ expressesAt_self hbv ht

/-- The quotient or the remainder. -/
theorem division_at {k : BinaryKind} (hk : k.isLogical = false) (hl : Expresses n u l)
    (hr : Expresses n v r) : Builds σ (dividesAt ρ) (chain.create (.binary k l r))
      (ExpressesAt ρ n (k.apply (u ρ) (v ρ))) := by
  by_cases hs : k = .sdiv
  · subst hs
    exact sdiv_at hl hr
  · exact (Total.weaken (hl.binary_builds hs hk hr) fun _ h => h.1).mono fun e he => ⟨_, he, rfl⟩

end Chain

/-! ### Operands and registers -/

/-- What Pin documents of the registers of a product or a dividend. -/
structure Registers.Paired {Reg : Type} (P : Registers Reg) : Prop where
  getDx_ne : ∀ n ∈ [1, 2, 4, 8], P.getDx n ≠ P.regInvalid
  apart : ∀ n ∈ [1, 2, 4, 8], P.regFullRegName (P.getAx n) ≠ P.regFullRegName (P.getDx n)
  regAl : P.regIsUpper8 (P.getAx 1) = false

theorem X86Reg.registers_paired : X86Reg.registers.Paired where
  getDx_ne := by decide
  apart := by decide
  regAl := rfl

/-- The operand of the instructions on the accumulator. -/
inductive PairForm (Reg : Type)
  | reg (src : Reg)
  | mem (m : MemArg Reg)

namespace PairForm

open Handler

variable {Reg : Type} [DecidableEq Reg] (T : Process Reg)

def handler : PairForm Reg → PairOp → Handler Reg Unit
  | reg src, .mul =>
      T.instrumentMulReg src (T.pin.getAx (T.pin.regSize src)) (T.pin.getDx (T.pin.regSize src))
  | mem m, .mul => T.instrumentMulMem m (T.pin.getAx m.size) (T.pin.getDx m.size)
  | reg src, .imul => T.instrumentIMulReg src
  | mem m, .imul => T.instrumentIMulMem m
  | reg src, .div => T.instrumentDivReg src false
  | mem m, .div => T.instrumentDivMem m false
  | reg src, .idiv => T.instrumentDivReg src true
  | mem m, .idiv => T.instrumentDivMem m true

def src : PairForm Reg → Operand Reg
  | reg src => .reg src
  | mem m => .mem m.addr m.size

/-- The low and the high register of the handlers. -/
def ax (form : PairForm Reg) : Reg :=
  T.pin.getAx (form.src.size T)

def dx (form : PairForm Reg) : Reg :=
  T.pin.getDx (form.src.size T)

section

variable (v : ShadowMap Reg) (form : PairForm Reg) (ρ : Input)

def srcBv : BitVec (form.src.size T * 8) :=
  form.src.bv T v ρ

def axBv : BitVec (form.src.size T * 8) :=
  ((Operand.reg (form.ax T)).bv T v ρ).setWidth _

def dxBv : BitVec (form.src.size T * 8) :=
  ((Operand.reg (form.dx T)).bv T v ρ).setWidth _

end

/-- Where the machine has byte `i` of the high half: for one byte it is the byte above `AL`. -/
def highPlace (form : PairForm Reg) (i : Nat) : Place Reg :=
  if form.src.size T = 1 then .reg (T.pin.regFullRegName (form.ax T)) 1
  else (Operand.reg (form.dx T)).place T i

def highBv (v : ShadowMap Reg) (form : PairForm Reg) (ρ : Input) : BitVec (form.src.size T * 8) :=
  BitVec.ofNat _ (Bytes.littleEndian
    ((List.range (form.src.size T)).map fun i => T.byteValue v ρ (form.highPlace T i)))

/-- The low and the high half of the machine. -/
def machine (v : ShadowMap Reg) (form : PairForm Reg) (op : PairOp) (ρ : Input) :
    BitVec (form.src.size T * 8) × BitVec (form.src.size T * 8) :=
  op.result (form.highBv T v ρ) (form.axBv T v ρ) (form.srcBv T v ρ)

/-- The low and the high half of the handlers. -/
def computed (v : ShadowMap Reg) (form : PairForm Reg) (op : PairOp) (ρ : Input) :
    BitVec (form.src.size T * 8) × BitVec (form.src.size T * 8) :=
  op.result (form.dxBv T v ρ) (form.axBv T v ρ) (form.srcBv T v ρ)

/-- The operands of a multiplication. -/
def factors : PairForm Reg → Handler Reg (Option (Expr × Expr))
  | form@(reg src) => T.getExprFromRegReg src (form.ax T)
  | form@(mem m) => T.getExprFromMemReg m (form.ax T)

/-- The operands of a division. -/
def divided : PairForm Reg → Handler Reg (Option (Expr × Expr × Expr))
  | form@(reg src) => T.getExprFromRegRegReg src (form.ax T) (form.dx T)
  | form@(mem m) => T.getExprFromMemRegReg m (form.ax T) (form.dx T)

/-- What the handlers read. -/
def operands (form : PairForm Reg) (op : PairOp) : List (Operand Reg) :=
  if op.divides then [form.src, .reg (form.ax T), .reg (form.dx T)]
    else [form.src, .reg (form.ax T)]

variable {T} {form : PairForm Reg} {op : PairOp}

theorem handler_mul (hop : op.divides = false) : form.handler T op =
    T.instrumentMul (form.factors T) (form.ax T) (form.dx T) (form.src.size T * 8) op.sign := by
  cases form <;> cases op <;> first | rfl | cases hop

theorem handler_div (hop : op.divides = true) : form.handler T op =
    T.instrumentDiv (form.divided T) (form.ax T) (form.dx T) op.sign := by
  cases form <;> cases op <;> first | rfl | cases hop

variable (T) in
/-- The source can be read, and the pair can be read and written. -/
def Ready (form : PairForm Reg) : Prop :=
  (match form with
    | reg src => T.Tracked src
    | mem m => T.Addressed m) ∧ T.Tracked (form.ax T) ∧ T.Tracked (form.dx T)

theorem Ready.ax {form : PairForm Reg} (h : form.Ready T) : T.Tracked (form.ax T) :=
  h.2.1

theorem Ready.dx {form : PairForm Reg} (h : form.Ready T) : T.Tracked (form.dx T) :=
  h.2.2

end PairForm

namespace Process

open Handler Stateful

variable {Reg : Type} [DecidableEq Reg] (T : Process Reg)

/-- The shadow is the one of the machine for the input `ρ`. -/
structure Right (input : Input) (form : PairForm Reg) (op : PairOp) (v v' : ShadowMap Reg)
    (ρ : Input) : Prop where
  low : ∀ i < form.src.size T, Stands input (v' ((Operand.reg (form.ax T)).place T i))
    (fun ρ => Bytes.byte (form.machine T v op ρ).1.toNat i) ρ
  high : ∀ i < form.src.size T, Stands input (v' (form.highPlace T i))
    (fun ρ => Bytes.byte (form.machine T v op ρ).2.toNat i) ρ
  upper : ∀ k ∈ (Operand.reg (form.ax T)).upper T ++ (Operand.reg (form.dx T)).upper T,
    Stands input (v' k) (fun _ => 0) ρ
  other : ∀ k, (∀ i < form.src.size T, k ≠ (Operand.reg (form.ax T)).place T i) →
    (∀ i < form.src.size T, k ≠ form.highPlace T i) →
    k ∉ (Operand.reg (form.ax T)).upper T ++ (Operand.reg (form.dx T)).upper T →
      Stands input (v' k) (T.byteValue v · k) ρ

/-- What has to hold if the result depends on the input. For one byte `DL` should not change. -/
def ComputedRight (input : Input) (form : PairForm Reg) (op : PairOp) (v v₁ : ShadowMap Reg)
    (ρ : Input) : Prop :=
  form.src.size T = 1 → (form.computed T v op ρ).1 = (form.machine T v op ρ).1 ∧
    Bytes.byte (form.computed T v op ρ).2.toNat 0 =
      T.byteValue v ρ ((Operand.reg (form.dx T)).place T 0) ∧
    Stands input (v₁ (form.highPlace T 0)) (fun ρ => Bytes.byte (form.machine T v op ρ).2.toNat 0) ρ

/-- What has to hold if it does not. A division does not clear the upper halves. -/
def IdleRight (input : Input) (form : PairForm Reg) (op : PairOp) (v v₁ : ShadowMap Reg)
    (ρ : Input) : Prop :=
  (form.src.size T = 1 → (form.machine T v op ρ).1 = (form.machine T v op input).1 ∧
    T.byteValue v ρ ((Operand.reg (form.dx T)).place T 0) =
      T.byteValue v input ((Operand.reg (form.dx T)).place T 0) ∧
    Stands input (v₁ (form.highPlace T 0))
      (fun ρ => Bytes.byte (form.machine T v op ρ).2.toNat 0) ρ) ∧
  (op.divides = true → ∀ k ∈ (Operand.reg (form.ax T)).upper T ++ (Operand.reg (form.dx T)).upper T,
    Stands input (v₁ k) (fun _ => 0) ρ)

/-- From `v₁` to `v'` both halves of `r` are stored. -/
structure Stored (form : PairForm Reg) (v₁ v' : ShadowMap Reg) (ρ : Input)
    (r : BitVec (form.src.size T * 8) × BitVec (form.src.size T * 8)) : Prop where
  low : ∀ i < form.src.size T, ∃ e, v' ((Operand.reg (form.ax T)).place T i) = some e ∧
    e.value ρ = Bytes.byte r.1.toNat i
  high : ∀ i < form.src.size T, ∃ e, v' ((Operand.reg (form.dx T)).place T i) = some e ∧
    e.value ρ = Bytes.byte r.2.toNat i
  upper : ∀ k ∈ (Operand.reg (form.ax T)).upper T ++ (Operand.reg (form.dx T)).upper T, v' k = none
  other : ∀ k, k ∉ (Operand.reg (form.ax T)).written T → k ∉ (Operand.reg (form.dx T)).written T →
    v' k = v₁ k

/-- From `v₁` to `v'` nothing is left of the result. -/
structure Emptied (form : PairForm Reg) (op : PairOp) (v₁ v' : ShadowMap Reg) : Prop where
  low : ∀ i < form.src.size T, v' ((Operand.reg (form.ax T)).place T i) = none
  high : ∀ i < form.src.size T, v' ((Operand.reg (form.dx T)).place T i) = none
  upper : ∀ k ∈ (Operand.reg (form.ax T)).upper T ++ (Operand.reg (form.dx T)).upper T,
    v' k = if op.divides then v₁ k else none
  other : ∀ k, k ∉ (Operand.reg (form.ax T)).written T → k ∉ (Operand.reg (form.dx T)).written T →
    v' k = v₁ k

variable {T} {σ : Session} {s : Shadow} {form : PairForm Reg} {op : PairOp}
variable {v v₁ v' : ShadowMap Reg} {ρ input : Input} {i j : Nat} {k : Place Reg}

omit [DecidableEq Reg] in
theorem exists_of_mem_written {r : Reg} (hk : k ∈ (Operand.reg r).written T) :
    ∃ i, k = .reg (T.pin.regFullRegName r) i := by
  rw [Operand.written_eq, List.mem_append, Operand.mem_places_iff] at hk
  rcases hk with ⟨i, -, rfl⟩ | hk
  · exact ⟨_, rfl⟩
  · have hk : k ∈ T.upperPlaces r := hk
    rw [upperPlaces] at hk
    split at hk
    · obtain ⟨j, rfl, -⟩ := mem_regPlaces_iff.1 hk
      exact ⟨j, rfl⟩
    · cases hk

omit [DecidableEq Reg] in
theorem notMem_written {r : Reg} {n : Nat} (hsize : (Operand.reg r).size T = n)
    (hplace : ∀ i < n, k ≠ (Operand.reg r).place T i) (hupper : k ∉ (Operand.reg r).upper T) :
    k ∉ (Operand.reg r).written T := by
  rw [Operand.written_eq, List.mem_append, Operand.mem_places_iff, hsize]
  rintro (⟨i, hi, hk⟩ | hk)
  · exact hplace i hi hk
  · exact hupper hk

section Places

variable (hP : T.pin.Documented) (hN : T.pin.Named) (hR : T.pin.Paired)
  (hn : form.src.size T ∈ [1, 2, 4, 8])

include hN hn in
theorem pair_size : (Operand.reg (form.ax T)).size T = form.src.size T ∧
    (Operand.reg (form.dx T)).size T = form.src.size T :=
  ⟨hN.getAx _ hn, hN.getDx _ hn⟩

omit [DecidableEq Reg] in
include hR hn in
theorem ax_ne_dx : T.pin.regFullRegName (form.ax T) ≠ T.pin.regFullRegName (form.dx T) :=
  hR.apart _ hn

omit [DecidableEq Reg] in
include hR hn in
theorem notMem_dx {i : Nat} : Place.reg (T.pin.regFullRegName (form.ax T)) i ∉
    (Operand.reg (form.dx T)).written T := by
  intro hk
  obtain ⟨j, hj⟩ := exists_of_mem_written hk
  exact ax_ne_dx hR hn (Place.reg.inj hj).1

omit [DecidableEq Reg] in
include hP in
theorem upper_of_one {r : Reg} (h1 : (Operand.reg r).size T = 1) :
    (Operand.reg r).upper T = [] := by
  refine if_neg fun h32 => ?_
  have h1 : T.pin.regSize r = 1 := h1
  have := (hP.gr32 r h32).1
  omega

include hP hN hR in
/-- `AH` is no byte of `AL`. -/
theorem highPlace_notMem_ax (h1 : form.src.size T = 1) :
    Place.reg (T.pin.regFullRegName (form.ax T)) 1 ∉ (Operand.reg (form.ax T)).written T := by
  have hsize : T.pin.regSize (form.ax T) = 1 := (hN.getAx _ (by simp [h1])).trans h1
  have hupper8 : T.pin.regIsUpper8 (form.ax T) = false := by
    rw [PairForm.ax, h1]
    exact hR.regAl
  rw [Operand.written_eq, List.mem_append, Operand.mem_places_iff]
  rintro (⟨i, hi, h⟩ | h)
  · have hi : i < 1 := hsize ▸ hi
    have h := (Place.reg.inj h).2
    rw [hupper8] at h
    simp only [Bool.false_eq_true, if_false] at h
    omega
  · rw [upper_of_one hP hsize] at h
    cases h

omit [DecidableEq Reg] in
theorem highPlace_of_one (h1 : form.src.size T = 1) :
    form.highPlace T i = .reg (T.pin.regFullRegName (form.ax T)) 1 :=
  if_pos h1

omit [DecidableEq Reg] in
theorem highPlace_of_ne (h1 : form.src.size T ≠ 1) :
    form.highPlace T i = (Operand.reg (form.dx T)).place T i :=
  if_neg h1

include hN hn in
theorem highBv_eq (h1 : form.src.size T ≠ 1) : form.highBv T v ρ = form.dxBv T v ρ := by
  have hdx := (pair_size hN hn).2
  have hplaces : (List.range (form.src.size T)).map
      (fun i => T.byteValue v ρ (form.highPlace T i)) =
      ((Operand.reg (form.dx T)).places T).map (T.byteValue v ρ) := by
    rw [Operand.places_eq, hdx, List.map_map]
    exact List.map_congr_left fun i _ => congrArg _ (highPlace_of_ne h1)
  apply BitVec.eq_of_toNat_eq
  rw [PairForm.highBv, hplaces, PairForm.dxBv, Operand.bv, BitVec.toNat_setWidth,
    BitVec.toNat_ofNat,
    BitVec.toNat_ofNat, hdx, Nat.mod_mod]

include hN hn in
theorem computed_eq_machine (h1 : form.src.size T ≠ 1) :
    form.computed T v op ρ = form.machine T v op ρ := by
  rw [PairForm.computed, PairForm.machine, highBv_eq hN hn h1]

end Places

theorem machine_const (hN : T.pin.Named) (hn : form.src.size T ∈ [1, 2, 4, 8])
    (hv : T.Consistent input v) (hidle : ∀ o ∈ form.operands T op, ∀ k ∈ o.places T, ¬ Symbolic v k)
    (h1 : form.src.size T ≠ 1) : form.machine T v op ρ = form.machine T v op input := by
  have hconst {o : Operand Reg} (ho : o ∈ form.operands T op) : o.bv T v ρ = o.bv T v input :=
    (hv.bv (hidle o ho) ρ).trans (hv.bv (hidle o ho) input).symm
  have hsrc : form.srcBv T v ρ = form.srcBv T v input :=
    hconst (by cases op <;> simp [PairForm.operands, PairOp.divides])
  have hax : form.axBv T v ρ = form.axBv T v input :=
    congrArg (BitVec.setWidth _) (hconst (by cases op <;> simp [PairForm.operands, PairOp.divides]))
  rw [PairForm.machine, PairForm.machine, hsrc, hax]
  by_cases hop : op.divides = true
  · have hdx : form.dxBv T v ρ = form.dxBv T v input :=
      congrArg (BitVec.setWidth _) (hconst (by simp [PairForm.operands, hop]))
    rw [highBv_eq hN hn h1, highBv_eq hN hn h1, hdx]
  · have hop : op.divides = false := by simpa using hop
    rw [PairOp.result_of_not_divides hop, PairOp.result_of_not_divides hop]

/-! ### What is right -/

section Right

variable (hP : T.pin.Documented) (hN : T.pin.Named) (hR : T.pin.Paired)
  (hn : form.src.size T ∈ [1, 2, 4, 8]) (hfades : Fades v v₁) (hv : T.Consistent input v)
  (hother : ∀ k, k ∉ (Operand.reg (form.ax T)).written T → k ∉ (Operand.reg (form.dx T)).written T →
    v' k = v₁ k)

include hN hn hfades hv hother in
/-- For two bytes and more it is about the bytes that the handlers write. -/
theorem right_iff_of_ne (h1 : form.src.size T ≠ 1) : T.Right input form op v v' ρ ↔
    (∀ i < form.src.size T, Stands input (v' ((Operand.reg (form.ax T)).place T i))
      (fun ρ => Bytes.byte (form.machine T v op ρ).1.toNat i) ρ) ∧
    (∀ i < form.src.size T, Stands input (v' ((Operand.reg (form.dx T)).place T i))
      (fun ρ => Bytes.byte (form.machine T v op ρ).2.toNat i) ρ) ∧
    ∀ k ∈ (Operand.reg (form.ax T)).upper T ++ (Operand.reg (form.dx T)).upper T,
      Stands input (v' k) (fun _ => 0) ρ := by
  obtain ⟨hax, hdx⟩ := pair_size hN hn
  constructor
  · intro h
    exact ⟨h.low, fun i hi => highPlace_of_ne h1 ▸ h.high i hi, h.upper⟩
  · rintro ⟨hlow, hhigh, hupper⟩
    refine ⟨hlow, fun i hi => (highPlace_of_ne h1).symm ▸ hhigh i hi, hupper,
      fun k hk hk' hnot => ?_⟩
    rw [List.mem_append, not_or] at hnot
    rw [hother k (notMem_written hax hk hnot.1)
      (notMem_written hdx (fun i hi => highPlace_of_ne h1 ▸ hk' i hi) hnot.2)]
    exact stands_of_fades hfades hv

include hP hN hR hn hfades hv hother in
/-- For one byte `DL` should be what it was, and `AH` is not written. -/
theorem right_iff_of_one (h1 : form.src.size T = 1) : T.Right input form op v v' ρ ↔
    Stands input (v' ((Operand.reg (form.ax T)).place T 0))
      (fun ρ => Bytes.byte (form.machine T v op ρ).1.toNat 0) ρ ∧
    Stands input (v' ((Operand.reg (form.dx T)).place T 0))
      (T.byteValue v · ((Operand.reg (form.dx T)).place T 0)) ρ ∧
    Stands input (v₁ (form.highPlace T 0))
      (fun ρ => Bytes.byte (form.machine T v op ρ).2.toNat 0) ρ := by
  obtain ⟨hax, hdx⟩ := pair_size hN hn
  have hpos : 0 < form.src.size T := by omega
  have hah : v' (form.highPlace T 0) = v₁ (form.highPlace T 0) := by
    rw [highPlace_of_one h1]
    exact hother _ (highPlace_notMem_ax hP hN hR h1) (notMem_dx hR hn)
  have hupper : (Operand.reg (form.ax T)).upper T ++ (Operand.reg (form.dx T)).upper T = [] := by
    rw [upper_of_one hP (hax.trans h1), upper_of_one hP (hdx.trans h1), List.append_nil]
  constructor
  · intro h
    refine ⟨h.low 0 hpos, h.other _ (fun i _ heq => ?_) (fun i _ heq => ?_) ?_, hah ▸ h.high 0 hpos⟩
    · exact ax_ne_dx hR hn (Place.reg.inj heq).1.symm
    · rw [highPlace_of_one h1] at heq
      exact ax_ne_dx hR hn (Place.reg.inj heq).1.symm
    · rw [hupper]
      exact List.not_mem_nil
  · rintro ⟨hlow, hdl, hhigh⟩
    refine ⟨fun i hi => ?_, fun i hi => ?_, fun k hk => ?_, fun k hk hk' _ => ?_⟩
    · obtain rfl : i = 0 := by omega
      exact hlow
    · obtain rfl : i = 0 := by omega
      exact hah ▸ hhigh
    · rw [hupper] at hk
      cases hk
    · by_cases hdlk : k = (Operand.reg (form.dx T)).place T 0
      · exact hdlk ▸ hdl
      · rw [hother k (notMem_written hax hk
          (by rw [upper_of_one hP (hax.trans h1)]; exact List.not_mem_nil))
          (notMem_written hdx (fun i hi => ?_)
            (by rw [upper_of_one hP (hdx.trans h1)]; exact List.not_mem_nil))]
        · exact stands_of_fades hfades hv
        · obtain rfl : i = 0 := by omega
          exact hdlk

include hP hN hR hn hfades hv in
theorem Stored.right_iff (h : T.Stored form v₁ v' ρ (form.computed T v op ρ)) :
    T.Right input form op v v' ρ ↔ T.ComputedRight input form op v v₁ ρ := by
  by_cases h1 : form.src.size T = 1
  · obtain ⟨y, hy, hlow⟩ := h.low 0 (by omega)
    obtain ⟨z, hz, hhigh⟩ := h.high 0 (by omega)
    rw [right_iff_of_one hP hN hR hn hfades hv h.other h1, ComputedRight, imp_iff_right h1, hy, hz]
    refine and_congr (Iff.trans (Eq.congr_left hlow) ⟨fun heq => ?_, fun heq => heq ▸ rfl⟩)
      (and_congr (Eq.congr_left hhigh) Iff.rfl)
    refine eq_of_bytes fun i hi => ?_
    obtain rfl : i = 0 := by omega
    exact heq
  · refine iff_of_true ?_ fun h => absurd h h1
    rw [computed_eq_machine hN hn h1] at h
    refine (right_iff_of_ne hN hn hfades hv h.other h1).2
      ⟨fun i hi => ?_, fun i hi => ?_, fun k hk => ?_⟩
    · obtain ⟨e, he, hval⟩ := h.low i hi
      rw [he]
      exact hval
    · obtain ⟨e, he, hval⟩ := h.high i hi
      rw [he]
      exact hval
    · rw [h.upper k hk]
      exact rfl

include hP hN hR hn hfades hv in
theorem Emptied.right_iff (h : T.Emptied form op v₁ v')
    (hidle : ∀ o ∈ form.operands T op, ∀ k ∈ o.places T, ¬ Symbolic v k) :
    T.Right input form op v v' ρ ↔ T.IdleRight input form op v v₁ ρ := by
  have hupper : (∀ k ∈ (Operand.reg (form.ax T)).upper T ++ (Operand.reg (form.dx T)).upper T,
      Stands input (v' k) (fun _ => 0) ρ) ↔ (op.divides = true →
        ∀ k ∈ (Operand.reg (form.ax T)).upper T ++ (Operand.reg (form.dx T)).upper T,
          Stands input (v₁ k) (fun _ => 0) ρ) := by
    by_cases hop : op.divides = true
    · rw [imp_iff_right hop]
      exact forall₂_congr fun k hk => by rw [h.upper k hk, if_pos hop]
    · refine iff_of_true (fun k hk => ?_) fun hop' => absurd hop' hop
      rw [h.upper k hk, if_neg hop]
      exact rfl
  obtain ⟨hax, hdx⟩ := pair_size hN hn
  by_cases h1 : form.src.size T = 1
  · have hnone : (Operand.reg (form.ax T)).upper T ++ (Operand.reg (form.dx T)).upper T = [] := by
      rw [upper_of_one hP (hax.trans h1), upper_of_one hP (hdx.trans h1), List.append_nil]
    rw [right_iff_of_one hP hN hR hn hfades hv h.other h1, IdleRight, imp_iff_right h1, hnone,
      h.low 0 (by omega), h.high 0 (by omega)]
    refine Iff.trans ?_ (and_iff_left fun _ => List.forall_mem_nil _).symm
    refine and_congr ⟨fun heq => ?_, fun heq => ?_⟩ Iff.rfl
    · refine eq_of_bytes fun i hi => ?_
      obtain rfl : i = 0 := by omega
      exact heq
    · exact congrArg (fun w => Bytes.byte w.toNat 0) heq
  · have hconst := machine_const (ρ := ρ) hN hn hv hidle h1
    rw [right_iff_of_ne hN hn hfades hv h.other h1, IdleRight, hupper]
    refine ⟨fun h => ⟨fun h' => absurd h' h1, h.2.2⟩, fun ⟨_, hright⟩ =>
      ⟨fun i hi => ?_, fun i hi => ?_, hright⟩⟩
    · rw [h.low i hi]
      exact congrArg (fun r => Bytes.byte r.1.toNat i) hconst
    · rw [h.high i hi]
      exact congrArg (fun r => Bytes.byte r.2.toNat i) hconst

end Right

/-! ### The handlers -/

section Handlers

open SymbolicExprBuilder (chain)

variable (hP : T.pin.Documented) (hN : T.pin.Named) (hR : T.pin.Paired) (hb : T.builder = chain)
  (hs : s.WellFormed) (hv : T.Consistent σ.input (T.peek s)) (hn : form.src.size T ∈ [1, 2, 4, 8])

omit [DecidableEq Reg] in
include hR hn in
theorem Stored.of_puts {v₂ : ShadowMap Reg}
    {u : Input → BitVec ((Operand.reg (form.ax T)).size T * 8)}
    {w : Input → BitVec ((Operand.reg (form.dx T)).size T * 8)}
    {r : BitVec (form.src.size T * 8) × BitVec (form.src.size T * 8)}
    (hax : (Operand.reg (form.ax T)).size T = form.src.size T)
    (hdx : (Operand.reg (form.dx T)).size T = form.src.size T)
    (hlow : T.Puts v₁ v₂ (.reg (form.ax T)) u) (hhigh : T.Puts v₂ v' (.reg (form.dx T)) w)
    (hu : (u ρ).toNat = r.1.toNat) (hw : (w ρ).toNat = r.2.toNat) : T.Stored form v₁ v' ρ r := by
  refine ⟨fun i hi => ?_, fun i hi => ?_, fun k hk => ?_, fun k hk hk' => ?_⟩
  · rw [hhigh.other ((Operand.reg (form.ax T)).place T i) (notMem_dx hR hn), ← hu]
    exact hlow.shows ρ i (hax.symm ▸ hi)
  · rw [← hw]
    exact hhigh.shows ρ i (hdx.symm ▸ hi)
  · rcases List.mem_append.1 hk with hk | hk
    · obtain ⟨i, rfl⟩ := exists_of_mem_written
          (Operand.written_eq (T := T) _ ▸ List.mem_append_right _ hk)
      rw [hhigh.other _ (notMem_dx hR hn)]
      exact hlow.upper _ hk
    · exact hhigh.upper k hk
  · rw [hhigh.other k hk', hlow.other k hk]

include hP hb in
theorem setExprToReg_at {r : Reg} {n : Nat} (hr : T.Tracked r) (hsize : (Operand.reg r).size T = n)
    (hle : n ≤ 2 ^ 64)
    {w : BitVec (n * 8)} {e : Expr} (he : ExpressesAt ρ (n * 8) w e) (s : Shadow) :
    Achieves (body σ) exactly (T.setExprToReg r (some e)) s fun _ s' _ =>
      ∃ u, T.Puts (T.peek s) (T.peek s') (.reg r) u ∧ (u ρ).toNat = w.toNat := by
  subst hsize
  obtain ⟨u, hu, rfl⟩ := he
  exact (set_achieves (o := .reg r) hP hb hr hle hu).mono fun _ s' _ h => ⟨u, h.2, rfl⟩

include hP hb hs hn in
theorem factors_reads (hready : form.Ready T) : Returns (body σ) exactly (form.factors T) s := by
  cases form with
  | reg src => exact getExprFromRegReg_returns hP hb hs hready.1 hready.2.1
  | mem m =>
      have hpos : 0 < m.size := by
        have hsize : m.size ∈ [1, 2, 4, 8] := hn
        simp only [List.mem_cons, List.not_mem_nil, or_false] at hsize
        omega
      exact getExprFromMemReg_returns hP hb hs hready.1 hpos hready.2.1

include hP hb hs hn in
theorem divided_reads (hready : form.Ready T) : Returns (body σ) exactly (form.divided T) s := by
  cases form with
  | reg src => exact getExprFromRegRegReg_returns hP hb hs hready.1 hready.2.1 hready.2.2
  | mem m =>
      have hpos : 0 < m.size := by
        have hsize : m.size ∈ [1, 2, 4, 8] := hn
        simp only [List.mem_cons, List.not_mem_nil, or_false] at hsize
        omega
      exact getExprFromMemRegReg_returns hP hb hs hready.1 hpos hready.2.1 hready.2.2

include hP hN hb hs hv hn in
theorem factors_fetches : Fetches σ T (form.factors T) s [form.src, .reg (form.ax T)] fun x =>
    Expresses (form.src.size T * 8) (form.srcBv T (T.peek s)) x.1 ∧
      Expresses (form.src.size T * 8) (form.axBv T (T.peek s)) x.2 := by
  have hax := (pair_size hN hn).1
  have hwidth : (Operand.reg (form.ax T)).size T * 8 = form.src.size T * 8 := by rw [hax]
  cases form with
  | reg src =>
      refine (getExprFromRegReg_fetches hP hb hs hv src _).mono fun x ⟨hx, hl⟩ => ⟨hx, ?_⟩
      exact hl.setWidth hwidth
  | mem m =>
      have hpos : 0 < m.size := by
        have hsize : m.size ∈ [1, 2, 4, 8] := hn
        simp only [List.mem_cons, List.not_mem_nil, or_false] at hsize
        omega
      refine (getExprFromMemReg_fetches hP hb hs hv hpos _).mono fun x ⟨hx, hl⟩ => ⟨hx, ?_⟩
      exact hl.setWidth hwidth

include hP hN hb hs hv hn in
theorem divided_fetches :
    Fetches σ T (form.divided T) s [form.src, .reg (form.ax T), .reg (form.dx T)] fun x =>
      Expresses (form.src.size T * 8) (form.srcBv T (T.peek s)) x.1 ∧
        Expresses (form.src.size T * 8) (form.axBv T (T.peek s)) x.2.1 ∧
          Expresses (form.src.size T * 8) (form.dxBv T (T.peek s)) x.2.2 := by
  obtain ⟨hax, hdx⟩ := pair_size hN hn
  have hl : (Operand.reg (form.ax T)).size T * 8 = form.src.size T * 8 := by rw [hax]
  have hh : (Operand.reg (form.dx T)).size T * 8 = form.src.size T * 8 := by rw [hdx]
  cases form with
  | reg src =>
      refine (getExprFromRegRegReg_fetches hP hb hs hv src _ _).mono fun x hx => ?_
      exact ⟨hx.1, hx.2.1.setWidth hl, hx.2.2.setWidth hh⟩
  | mem m =>
      have hpos : 0 < m.size := by
        have hsize : m.size ∈ [1, 2, 4, 8] := hn
        simp only [List.mem_cons, List.not_mem_nil, or_false] at hsize
        omega
      refine (getExprFromMemRegReg_fetches hP hb hs hv hpos _ _).mono fun x hx => ?_
      exact ⟨hx.1, hx.2.1.setWidth hl, hx.2.2.setWidth hh⟩

include hP hN hR hb hn in
theorem doMul_stored (hready : form.Ready T) (hop : op.divides = false) {x l : Expr}
    (hx : Expresses (form.src.size T * 8) (form.srcBv T v) x)
    (hl : Expresses (form.src.size T * 8) (form.axBv T v) l) (s : Shadow) :
    Achieves (body σ) exactly
      (T.doMul (form.ax T) (form.dx T) x l (form.src.size T * 8) op.sign) s fun _ s' _ =>
        T.Stored form (T.peek s) (T.peek s') ρ (form.computed T v op ρ) := by
  obtain ⟨hax, hdx⟩ := pair_size hN hn
  have hle : form.src.size T ≤ 2 ^ 64 := by
    simp only [List.mem_cons, List.not_mem_nil, or_false] at hn
    omega
  have hpos : 0 < form.src.size T * 8 := by
    simp only [List.mem_cons, List.not_mem_nil, or_false] at hn
    omega
  have hne : form.dx T ≠ T.pin.regInvalid := hR.getDx_ne _ hn
  unfold doMul
  rw [hb]
  refine Achieves.lift_bind (extendToDouble_builds hx op) fun x' hx' => ?_
  refine Achieves.lift_bind (extendToDouble_builds hl op) fun l' hl' => ?_
  refine Achieves.lift_bind (hx'.binary_builds (k := .mul) nofun rfl hl') fun res hres => ?_
  refine onEflags_bind ?_
  refine Achieves.lift_bind (hres.extract_builds (i := 0) hpos (by omega)) fun lo hlo => ?_
  refine Achieves.bind (setExprToReg_at (ρ := ρ) hP hb hready.ax hax hle ⟨_, hlo, rfl⟩ _)
    fun _ s₁ _ ⟨u, hu, hulo⟩ => ?_
  rw [if_pos hne]
  refine Achieves.lift_bind (hres.extract_builds hpos (le_refl _)) fun hi hhi => ?_
  refine Achieves.mono (setExprToReg_at (ρ := ρ) hP hb hready.dx hdx hle ⟨_, hhi, rfl⟩ _)
    fun _ s₂ _ ⟨w, hw, hwhi⟩ => ?_
  rw [PairForm.computed, PairOp.result_of_not_divides hop]
  exact .of_puts hR hn hax hdx hu hw hulo hwhi

include hP hN hR hn in
theorem clear_emptied (hready : form.Ready T) (hop : op.divides = false) (s : Shadow) :
    Achieves (body σ) exactly (do
      invalidateEflags .umul
      T.clearExprFromReg (form.ax T)
      if form.dx T ≠ T.pin.regInvalid then T.clearExprFromReg (form.dx T)) s fun _ s' _ =>
    T.Emptied form op (T.peek s) (T.peek s') := by
  obtain ⟨hax, hdx⟩ := pair_size hN hn
  have hne : form.dx T ≠ T.pin.regInvalid := hR.getDx_ne _ hn
  refine onEflags_bind ?_
  refine Achieves.bind ((clearExprFromReg_returns hready.ax).achieves
    (clearExprFromReg_cleared hP (form.ax T))) fun _ s₁ _ ⟨_, _, hlow, _⟩ => ?_
  rw [if_pos hne]
  refine Achieves.mono ((clearExprFromReg_returns hready.dx).achieves
    (clearExprFromReg_cleared hP (form.dx T))) fun _ s₂ _ ⟨_, _, hhigh, _⟩ => ?_
  have hempty {k : Place Reg} (hk : k ∈ (Operand.reg (form.ax T)).written T ∨
      k ∈ (Operand.reg (form.dx T)).written T) : T.peek s₂ k = none := by
    by_cases hk' : k ∈ (Operand.reg (form.dx T)).written T
    · exact hhigh.empty k ((Operand.mem_dropped_iff hP _ k).2 hk')
    · rw [hhigh.same k (mt (Operand.mem_dropped_iff hP _ k).1 hk')]
      exact hlow.empty k ((Operand.mem_dropped_iff hP _ k).2 (hk.resolve_right hk'))
  refine ⟨fun i hi => hempty (.inl ?_), fun i hi => hempty (.inr ?_), fun k hk => ?_,
    fun k hk hk' => ?_⟩
  · rw [Operand.written_eq]
    exact List.mem_append_left _ (Operand.mem_places_iff.2 ⟨i, hax.symm ▸ hi, rfl⟩)
  · rw [Operand.written_eq]
    exact List.mem_append_left _ (Operand.mem_places_iff.2 ⟨i, hdx.symm ▸ hi, rfl⟩)
  · rw [hop, if_neg Bool.false_ne_true]
    refine hempty ((List.mem_append.1 hk).imp (fun hk => ?_) fun hk => ?_)
    · exact Operand.written_eq (T := T) _ ▸ List.mem_append_right _ hk
    · exact Operand.written_eq (T := T) _ ▸ List.mem_append_right _ hk
  · rw [hhigh.same k (mt (Operand.mem_dropped_iff hP _ k).1 hk'),
      hlow.same k (mt (Operand.mem_dropped_iff hP _ k).1 hk)]
    rfl

omit [DecidableEq Reg] in
include hb in
theorem divPart_at {k : BinaryKind} (hk : k.isLogical = false) {n : Nat} (hn : 0 < n) {l r : Expr}
    {u w : Input → BitVec (n + n)} (hl : Expresses (n + n) u l) (hr : Expresses (n + n) w r) :
    Builds σ (dividesAt ρ) (T.divPart k l r n)
      (ExpressesAt ρ n ((k.apply (u ρ) (w ρ)).extractLsb' 0 n)) := by
  unfold divPart
  rw [hb]
  refine Total.bind (division_at hk hl hr) fun e ⟨y, hy, hyρ⟩ => ?_
  refine (Total.weaken (hy.extract_builds hn (by omega)) fun _ h => h.1).mono
    fun e' he' => ⟨_, he', ?_⟩
  rw [hyρ]

include hP hN hR hb hn in
theorem doDiv_stored (hready : form.Ready T) (hop : op.divides = true) {x div : Expr}
    {h l : BitVec (form.src.size T * 8)}
    {u : Input → BitVec (form.src.size T * 8 + form.src.size T * 8)} (hu : u ρ = h ++ l)
    (hx : Expresses (form.src.size T * 8) (form.srcBv T v) x) (hdiv : Expresses _ u div)
    (hne : form.srcBv T v ρ ≠ 0) (s : Shadow) :
    Achieves (body σ) (dividesAt ρ) (T.doDiv (form.dx T) (form.ax T) x div op.sign) s fun _ s' _ =>
      T.Stored form (T.peek s) (T.peek s') ρ (op.result h l (form.srcBv T v ρ)) := by
  obtain ⟨hax, hdx⟩ := pair_size hN hn
  have hle : form.src.size T ≤ 2 ^ 64 := by
    simp only [List.mem_cons, List.not_mem_nil, or_false] at hn
    omega
  have hpos : 0 < form.src.size T * 8 := by
    simp only [List.mem_cons, List.not_mem_nil, or_false] at hn
    omega
  have hbits : T.pin.regSize (form.dx T) * 8 = form.src.size T * 8 := congrArg (· * 8) hdx
  have hlog (k : BinaryKind) (hk : k = op.quotient ∨ k = op.remainder) : k.isLogical = false := by
    rcases hk with rfl | rfl <;> cases op <;> rfl
  unfold doDiv
  rw [hb, hbits]
  refine Achieves.lift_bind (Total.weaken (extendToDouble_builds hx op) fun _ h => h.1)
    fun x' hx' => ?_
  rw [if_pos (hx'.bits.trans hdiv.bits.symm)]
  refine Achieves.lift_bind (divPart_at hb (hlog _ (.inl rfl)) hpos hdiv hx') fun q hq => ?_
  refine Achieves.lift_bind (divPart_at hb (hlog _ (.inr rfl)) hpos hdiv hx') fun r hr => ?_
  refine Achieves.bind (Achieves.weaken (setExprToReg_at hP hb hready.ax hax hle hq s)
    fun _ h => h.1)
    fun _ s₁ _ ⟨y, hy, hylo⟩ => ?_
  refine Achieves.mono (Achieves.weaken (setExprToReg_at hP hb hready.dx hdx hle hr s₁)
    fun _ h => h.1)
    fun _ s₂ _ ⟨z, hz, hzhi⟩ => ?_
  rw [PairOp.result_of_divides hop _ _ hne, ← hu]
  exact .of_puts hR hn hax hdx hy hz hylo hzhi

/-- What the instructions do. If no operand depends on the input the shadow is the one of the
machine for `ρ` if and only if `IdleRight`, and `ComputedRight` otherwise. -/
def PairDone (input : Input) (T : Process Reg) (form : PairForm Reg) (op : PairOp)
    (v v' : ShadowMap Reg)
    (ρ : Input) : Prop :=
  ∃ v₁, Fades v v₁ ∧
    ((∀ o ∈ form.operands T op, ∀ k ∈ o.places T, ¬ Symbolic v k) ∧
        (T.Right input form op v v' ρ ↔ T.IdleRight input form op v v₁ ρ) ∨
      (T.Right input form op v v' ρ ↔ T.ComputedRight input form op v v₁ ρ))

include hP hN hR hb hs hv hn in
theorem mul_done (hready : form.Ready T) (hop : op.divides = false) :
    Achieves (body σ) exactly (form.handler T op) s fun _ s' _ =>
      PairDone σ.input T form op (T.peek s) (T.peek s') ρ := by
  rw [PairForm.handler_mul hop]
  refine computing_achieves (factors_fetches hP hN hb hs hv hn) (factors_reads hP hb hs hn hready)
    (fun s₁ h₁ hidle => ?_) fun s₁ x h₁ ⟨hx, hl⟩ => ?_
  · refine Achieves.mono (clear_emptied hP hN hR hn hready hop s₁) fun _ s' _ hemptied => ?_
    have hnot : ∀ o ∈ form.operands T op, ∀ k ∈ o.places T, ¬ Symbolic (T.peek s) k := by
      rw [PairForm.operands, hop, if_neg Bool.false_ne_true]
      exact fun o ho k hk => hidle.not_symbolic ho hk
    exact ⟨_, h₁.fades, .inl ⟨hnot, hemptied.right_iff hP hN hR hn h₁.fades hv hnot⟩⟩
  · refine Achieves.mono (doMul_stored (ρ := ρ) hP hN hR hb hn hready hop hx hl s₁)
      fun _ s' _ hstored => ?_
    exact ⟨_, h₁.fades, .inr (hstored.right_iff hP hN hR hn h₁.fades hv)⟩

include hP hN hR hb hs hv hn in
theorem div_done (hready : form.Ready T) (hop : op.divides = true)
    (hne : form.srcBv T (T.peek s) ρ ≠ 0) :
    Achieves (body σ) (dividesAt ρ) (form.handler T op) s
      fun _ s' _ => PairDone σ.input T form op (T.peek s) (T.peek s') ρ := by
  have hoperands : form.operands T op = [form.src, .reg (form.ax T), .reg (form.dx T)] := if_pos hop
  rw [PairForm.handler_div hop]
  refine onEflags_bind ?_
  let s₀ : Shadow := { s with eflags := s.eflags.invalidate .umul }
  have hfetch : Fetches σ T (form.divided T) s₀ _ _ :=
    divided_fetches hP hN hb ⟨hs.regs, hs.memory⟩ hv hn
  have hreturns : Returns (body σ) exactly (form.divided T) s₀ :=
    divided_reads hP hb ⟨hs.regs, hs.memory⟩ hn hready
  have hreads : Achieves (body σ) exactly (form.divided T) s₀ _ := hreturns.achieves hfetch
  refine Achieves.bind (Achieves.weaken hreads fun _ h => h.1) fun x s₁ _ ⟨h₁, hx⟩ => ?_
  have hfades : Fades (T.peek s) (T.peek s₁) := h₁.fades
  cases x with
  | none =>
      have hnot : ∀ o ∈ form.operands T op, ∀ k ∈ o.places T, ¬ Symbolic (T.peek s) k := by
        rw [hoperands]
        exact fun o ho k hk => hfades.not_symbolic (hx o ho k hk)
      have hemptied : T.Emptied form op (T.peek s₁) (T.peek s₁) := by
        obtain ⟨hax, hdx⟩ := pair_size hN hn
        refine ⟨fun i hi => hx (.reg (form.ax T)) (by simp) _ ?_,
          fun i hi => hx (.reg (form.dx T)) (by simp) _ ?_,
          fun k _ => (if_pos hop).symm, fun _ _ _ => rfl⟩
        · exact Operand.mem_places_iff.2 ⟨i, hax.symm ▸ hi, rfl⟩
        · exact Operand.mem_places_iff.2 ⟨i, hdx.symm ▸ hi, rfl⟩
      exact Achieves.ret ⟨_, hfades, .inl ⟨hnot, hemptied.right_iff hP hN hR hn hfades hv hnot⟩⟩
  | some x =>
      obtain ⟨hsrc, hl, hh⟩ := hx
      rw [hb]
      refine Achieves.lift_bind (Total.weaken (hh.concat_builds hl) fun _ h => h.1)
        fun div hdiv => ?_
      refine Achieves.mono (doDiv_stored hP hN hR hb hn hready hop rfl hsrc hdiv hne s₁)
        fun _ s' _ hstored => ?_
      exact ⟨_, hfades, .inr (Stored.right_iff hP hN hR hn hfades hv hstored)⟩

end Handlers

open X86Reg (process shadow)

/-- The input bytes are in `AL`. -/
abbrev alShadow : Shadow :=
  shadow [0]

end Process

end Qsym
