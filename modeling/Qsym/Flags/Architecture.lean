import Qsym.Flags.Methods
import Qsym.Flags.Resolve

/-!
# Qsym.Flags.Architecture

The flags of the machine, for the operations whose flags are modelled: each operation
with the values it worked on, the flags it defines by them, and the condition of a
jump. `Performs` ties a `set` of `Eflags` to such an operation, and `compute_builds`
says that the methods compute its flags.
-/

namespace X86

open Qsym

/-- An operation on operands of `n` bits. -/
inductive Operation
  | add (n : Nat) (dst src : BitVec n)
  | sub (n : Nat) (dst src : BitVec n)
  | logic (n : Nat) (result : BitVec n)
  | inc (n : Nat) (dst : BitVec n)
  | dec (n : Nat) (dst : BitVec n)
  /-- Rotations by one. -/
  | rol (n : Nat) (dst : BitVec n)
  | ror (n : Nat) (dst : BitVec n)
  | bt (n : Nat) (dst : BitVec n) (bit : Nat)

/-- The flags that only depend on the result. -/
def resultFlag {n : Nat} (result : BitVec n) : Eflag → Option Bool
  | .zf => some (result == 0)
  | .sf => some result.msb
  | .pf => some (evenParity result)
  | _ => none

namespace Operation

/-- The flags that an operation defines. The others it keeps or leaves undefined. -/
def flag : Operation → Eflag → Option Bool
  | add _ d s, .cf => some (d.uaddOverflow s)
  | add _ d s, .of => some (d.saddOverflow s)
  | add _ d s, f => resultFlag (d + s) f
  | sub _ d s, .cf => some (d.usubOverflow s)
  | sub _ d s, .of => some (d.ssubOverflow s)
  | sub _ d s, f => resultFlag (d - s) f
  | logic _ _, .cf => some false
  | logic _ _, .of => some false
  | logic _ r, f => resultFlag r f
  | inc _ d, .of => some (d.saddOverflow 1)
  | inc _ d, f => resultFlag (d + 1) f
  | dec _ d, .of => some (d.ssubOverflow 1)
  | dec _ d, f => resultFlag (d - 1) f
  | rol _ d, .cf => some d.msb
  | rol _ d, .of => some ((d.rotateLeft 1).msb ^^ d.msb)
  | ror _ d, .cf => some (d.getLsbD 0)
  | ror n d, .of => some ((d.rotateRight 1).msb ^^ (d.rotateRight 1).getLsbD (n - 2))
  | bt n d i, .cf => some (d.getLsbD (i % n))
  | _, _ => none

end Operation

/-- The flags left by the operations, the most recent one first: each by the last that
defines it. -/
def lastFlag (ops : List Operation) (f : Eflag) : Option Bool :=
  ops.findSome? fun op => op.flag f

end X86

namespace Qsym

open Procedure Qsym.Expr X86

/-- The condition of a jump, if its flags are known. -/
def JccKind.holds (flags : Eflag → Option Bool) : JccKind → Option Bool
  | b => flags .cf
  | be => do return (← flags .cf) || (← flags .zf)
  | l => do return (← flags .sf) != (← flags .of)
  | le => do return ((← flags .sf) != (← flags .of)) || (← flags .zf)
  | o => flags .of
  | s => flags .sf
  | p => flags .pf
  | z => flags .zf

/-! ### Bit vectors -/

section BitVec

variable {n : Nat} (d s : BitVec n)

theorem uaddOverflow_eq_ult : d.uaddOverflow s = (d + s).ult s := by
  have hd := d.isLt
  have hs := s.isLt
  rw [BitVec.uaddOverflow, BitVec.ult, BitVec.toNat_add, decide_eq_decide]
  by_cases h : d.toNat + s.toNat < 2 ^ n
  · rw [Nat.mod_eq_of_lt h]
    omega
  · rw [Nat.mod_eq_sub_mod (by omega), Nat.mod_eq_of_lt (by omega)]
    omega

theorem usubOverflow_eq_ult : d.usubOverflow s = d.ult s :=
  rfl

theorem saddOverflow_eq_signs :
    d.saddOverflow s = (!(d.msb ^^ s.msb) && ((d + s).msb ^^ d.msb)) := by
  rw [BitVec.saddOverflow_eq]
  cases d.msb <;> cases s.msb <;> cases (d + s).msb <;> rfl

theorem ssubOverflow_eq_signs :
    d.ssubOverflow s = ((d.msb ^^ s.msb) && ((d - s).msb ^^ d.msb)) := by
  rw [BitVec.ssubOverflow_eq]
  cases d.msb <;> cases s.msb <;> cases (d - s).msb <;> rfl

theorem sub_beq_zero : (d - s == 0) = (d == s) := by
  rw [Bool.eq_iff_iff, beq_iff_eq, beq_iff_eq]
  exact sub_eq_zero (a := d) (b := s)

theorem ult_or_beq : (d.ult s || d == s) = d.ule s := by
  rw [Bool.eq_iff_iff, BitVec.ult, BitVec.ule, Bool.or_eq_true, beq_iff_eq, decide_eq_true_eq,
    decide_eq_true_eq, ← BitVec.toNat_inj]
  omega

theorem slt_or_beq : (d.slt s || d == s) = d.sle s := by
  rw [Bool.eq_iff_iff, BitVec.slt, BitVec.sle, Bool.or_eq_true, beq_iff_eq, decide_eq_true_eq,
    decide_eq_true_eq, ← BitVec.toInt_inj]
  omega

/-- The sign of a difference is wrong exactly if it overflows. -/
theorem msb_sub_bne_ssubOverflow : ((d - s).msb != d.ssubOverflow s) = d.slt s := by
  have hd : d.msb = decide (d.toInt < 0) := BitVec.msb_eq_toInt
  have hs : s.msb = decide (s.toInt < 0) := BitVec.msb_eq_toInt
  rw [BitVec.slt]
  cases ho : d.ssubOverflow s with
  | false =>
      rw [BitVec.msb_eq_toInt, BitVec.toInt_sub_of_not_ssubOverflow (by simp [ho]), Bool.bne_false,
        decide_eq_decide]
      omega
  | true =>
      rw [BitVec.ssubOverflow_eq] at ho
      cases hm : (d - s).msb with
      | false =>
          simp only [hm, Bool.and_false, Bool.false_or, Bool.not_false, Bool.and_true,
            Bool.and_eq_true, Bool.not_eq_true', hd, hs, decide_eq_true_eq,
            decide_eq_false_iff_not] at ho
          simp
          omega
      | true =>
          simp only [hm, Bool.and_true, Bool.not_true, Bool.and_false, Bool.or_false,
            Bool.and_eq_true, Bool.not_eq_true', hd, hs, decide_eq_true_eq,
            decide_eq_false_iff_not] at ho
          simp
          omega

theorem two_pow_split (hn : 2 ≤ n) : 2 ^ n = 2 * 2 ^ (n - 1) ∧ 2 ≤ 2 ^ (n - 1) := by
  refine ⟨by rw [← Nat.pow_succ', Nat.succ_eq_add_one, Nat.sub_add_cancel (by omega)], ?_⟩
  have := Nat.pow_le_pow_right (n := 2) Nat.two_pos (show 1 ≤ n - 1 by omega)
  simpa using this

theorem toNat_one (hn : 2 ≤ n) : (1 : BitVec n).toNat = 1 := by
  have := two_pow_split hn
  simp [Nat.mod_eq_of_lt (show 1 < 2 ^ n by omega)]

/-- The smallest number. -/
theorem toNat_min (hn : 2 ≤ n) : ((1 : BitVec n) <<< (n - 1)).toNat = 2 ^ (n - 1) := by
  have := two_pow_split hn
  rw [BitVec.toNat_shiftLeft, toNat_one hn, Nat.shiftLeft_eq, Nat.one_mul,
    Nat.mod_eq_of_lt (by omega)]

theorem toNat_add_one (hn : 2 ≤ n) :
    (d + 1).toNat = if d.toNat + 1 = 2 ^ n then 0 else d.toNat + 1 := by
  have hd := d.isLt
  rw [BitVec.toNat_add, toNat_one hn]
  split
  next h => rw [h, Nat.mod_self]
  next h => exact Nat.mod_eq_of_lt (by omega)

theorem toNat_sub_one (hn : 2 ≤ n) :
    (d - 1).toNat = if d.toNat = 0 then 2 ^ n - 1 else d.toNat - 1 := by
  have hd := d.isLt
  rw [BitVec.toNat_sub, toNat_one hn]
  split
  next h => rw [h, Nat.add_zero, Nat.mod_eq_of_lt (by omega)]
  next h =>
      rw [Nat.mod_eq_sub_mod (by omega), Nat.mod_eq_of_lt (by omega)]
      omega

/-- Adding one overflows into the smallest number. -/
theorem saddOverflow_one (hn : 2 ≤ n) :
    d.saddOverflow 1 = (d + 1 == (1 : BitVec n) <<< (n - 1)) := by
  obtain ⟨hpow, hle⟩ := two_pow_split hn
  have hd := d.isLt
  have hsum := toNat_add_one d hn
  have hbeq : (d + 1 == (1 : BitVec n) <<< (n - 1)) = decide (d.toNat + 1 = 2 ^ (n - 1)) := by
    rw [Bool.eq_iff_iff, beq_iff_eq, ← BitVec.toNat_inj, toNat_min hn, hsum, decide_eq_true_eq]
    split <;> omega
  rw [hbeq, saddOverflow_eq_signs, BitVec.msb_eq_decide, BitVec.msb_eq_decide,
    BitVec.msb_eq_decide, toNat_one hn, hsum, decide_eq_false (by omega : ¬ 2 ^ (n - 1) ≤ 1)]
  obtain h | h | h := Nat.lt_trichotomy (d.toNat + 1) (2 ^ (n - 1))
  · rw [if_neg (by omega), decide_eq_false (by omega : ¬ 2 ^ (n - 1) ≤ d.toNat),
      decide_eq_false (by omega : ¬ 2 ^ (n - 1) ≤ d.toNat + 1),
      decide_eq_false (by omega : ¬ d.toNat + 1 = 2 ^ (n - 1))]
    rfl
  · rw [if_neg (by omega), decide_eq_false (by omega : ¬ 2 ^ (n - 1) ≤ d.toNat),
      decide_eq_true (by omega : 2 ^ (n - 1) ≤ d.toNat + 1), decide_eq_true h]
    rfl
  · rw [decide_eq_true (by omega : 2 ^ (n - 1) ≤ d.toNat),
      decide_eq_false (by omega : ¬ d.toNat + 1 = 2 ^ (n - 1))]
    rfl

/-- Subtracting one overflows from the smallest number. -/
theorem ssubOverflow_one (hn : 2 ≤ n) :
    d.ssubOverflow 1 = (d - 1 == ((1 : BitVec n) <<< (n - 1)) - 1) := by
  obtain ⟨hpow, hle⟩ := two_pow_split hn
  have hd := d.isLt
  have hdiff := toNat_sub_one d hn
  have hbeq : (d - 1 == ((1 : BitVec n) <<< (n - 1)) - 1) = decide (d.toNat = 2 ^ (n - 1)) := by
    rw [Bool.eq_iff_iff, beq_iff_eq, sub_left_inj, ← BitVec.toNat_inj, toNat_min hn,
      decide_eq_true_eq]
  rw [hbeq, ssubOverflow_eq_signs, BitVec.msb_eq_decide, BitVec.msb_eq_decide,
    BitVec.msb_eq_decide, toNat_one hn, hdiff, decide_eq_false (by omega : ¬ 2 ^ (n - 1) ≤ 1)]
  obtain h | h | h := Nat.lt_trichotomy d.toNat (2 ^ (n - 1))
  · rw [decide_eq_false (by omega : ¬ 2 ^ (n - 1) ≤ d.toNat),
      decide_eq_false (by omega : ¬ d.toNat = 2 ^ (n - 1))]
    rfl
  · rw [if_neg (by omega), decide_eq_true (by omega : 2 ^ (n - 1) ≤ d.toNat),
      decide_eq_false (by omega : ¬ 2 ^ (n - 1) ≤ d.toNat - 1), decide_eq_true h]
    rfl
  · rw [if_neg (by omega), decide_eq_true (by omega : 2 ^ (n - 1) ≤ d.toNat),
      decide_eq_true (by omega : 2 ^ (n - 1) ≤ d.toNat - 1),
      decide_eq_false (by omega : ¬ d.toNat = 2 ^ (n - 1))]
    rfl

theorem getLsbD_rotateLeft_one (hn : 2 ≤ n) : (d.rotateLeft 1).getLsbD 0 = d.msb := by
  rw [BitVec.getLsbD_rotateLeft, BitVec.msb_eq_getLsbD_last, Nat.mod_eq_of_lt (by omega)]
  simp

theorem msb_rotateRight_one (hn : 2 ≤ n) : (d.rotateRight 1).msb = d.getLsbD 0 := by
  rw [BitVec.msb_eq_getLsbD_last, BitVec.getLsbD_rotateRight, Nat.mod_eq_of_lt (by omega)]
  simp
  omega

end BitVec

/-! ### Operations that are set -/

/-- The operation that a call of `set` is about, under the input `ρ`: its expressions
have the values of the operation, at a width of at least a byte. -/
inductive Performs (ρ : Input) : FlagSet → Operation → Prop
  | add {n : Nat} {d s : BitVec n} {er ed es : Expr} (hn : 8 ≤ n)
      (hr : Denotes (· = ρ) n (fun _ => d + s) er) (hd : Denotes (· = ρ) n (fun _ => d) ed)
      (hs : Denotes (· = ρ) n (fun _ => s) es) :
      Performs ρ ⟨.add, some er, some ed, some es⟩ (.add n d s)
  | sub {n : Nat} {d s : BitVec n} {er ed es : Expr} (hn : 8 ≤ n)
      (hr : Denotes (· = ρ) n (fun _ => d - s) er) (hd : Denotes (· = ρ) n (fun _ => d) ed)
      (hs : Denotes (· = ρ) n (fun _ => s) es) :
      Performs ρ ⟨.sub, some er, some ed, some es⟩ (.sub n d s)
  | logic {n : Nat} {r : BitVec n} {er : Expr} {ed es : Option Expr} (hn : 8 ≤ n)
      (hr : Denotes (· = ρ) n (fun _ => r) er) :
      Performs ρ ⟨.logic, some er, ed, es⟩ (.logic n r)
  | inc {n : Nat} {d : BitVec n} {er : Expr} {ed es : Option Expr} (hn : 8 ≤ n)
      (hr : Denotes (· = ρ) n (fun _ => d + 1) er) :
      Performs ρ ⟨.inc, some er, ed, es⟩ (.inc n d)
  | dec {n : Nat} {d : BitVec n} {er : Expr} {ed es : Option Expr} (hn : 8 ≤ n)
      (hr : Denotes (· = ρ) n (fun _ => d - 1) er) :
      Performs ρ ⟨.dec, some er, ed, es⟩ (.dec n d)
  | rol {n : Nat} {d : BitVec n} {er : Expr} {ed es : Option Expr} (hn : 8 ≤ n)
      (hr : Denotes (· = ρ) n (fun _ => d.rotateLeft 1) er) :
      Performs ρ ⟨.rol, some er, ed, es⟩ (.rol n d)
  | ror {n : Nat} {d : BitVec n} {er : Expr} {ed es : Option Expr} (hn : 8 ≤ n)
      (hr : Denotes (· = ρ) n (fun _ => d.rotateRight 1) er) :
      Performs ρ ⟨.ror, some er, ed, es⟩ (.ror n d)
  | bt {n : Nat} {d : BitVec n} {i : Nat} {er : Expr} {ed es : Option Expr}
      (hr : Decides (· = ρ) (fun _ => d.getLsbD (i % n)) er) :
      Performs ρ ⟨.bt, some er, ed, es⟩ (.bt n d i)

namespace Performs

variable {ρ : Input} {s : FlagSet} {op : Operation}

/-- The masks list the flags that the operation defines. -/
theorem defines_eq (h : Performs ρ s op) (f : Eflag) : s.kind.defines f = (op.flag f).isSome := by
  cases h <;> cases f <;>
    simp only [Operation.flag, resultFlag, Option.isSome_some, Option.isSome_none] <;> rfl

variable {σ : Session} {ok : MethodCall → Prop} {b : ExprBuilder}
variable (hb : SoundSimply σ ok (· = ρ) b)

/-- The method of a flag builds it. -/
def Computes (σ : Session) (ok : MethodCall → Prop) (b : ExprBuilder) (ρ : Input) (s : FlagSet)
    (f : Eflag) (v : Bool) : Prop :=
  ∃ p, s.operation.compute b s.kind f = some p ∧
    Builds σ ok p (Decides (· = ρ) fun _ => v)

open FlagOperation

include hb

/-- The three flags of the result, for every kind. -/
theorem result_computes {n : Nat} {r : BitVec n} {er : Expr} {f : Eflag} {v : Bool}
    (hs : s.result = some er) (hr : Denotes (· = ρ) n (fun _ => r) er) (hn : 8 ≤ n)
    (hf : resultFlag r f = some v) : Computes σ ok b ρ s f v := by
  cases f with
  | zf =>
      cases hf
      exact ⟨_, rfl, computeZF_builds hb hs hr⟩
  | sf =>
      cases hf
      exact ⟨_, rfl, computeSF_builds hb hs hr⟩
  | pf =>
      cases hf
      exact ⟨_, rfl, computePF_builds hb hs hr hn⟩
  | cf | af | of => cases hf

/-- The methods compute the flags of the operation. -/
theorem computes (h : Performs ρ s op) {f : Eflag} {v : Bool} (hf : op.flag f = some v) :
    Computes σ ok b ρ s f v := by
  cases h with
  | add hn hr hd hs =>
      cases f with
      | cf =>
          cases hf
          refine ⟨_, rfl, (hb.compare .ult rfl hr hs).mono fun _ hx => hx.congr fun _ _ => ?_⟩
          exact (uaddOverflow_eq_ult ..).symm
      | of =>
          cases hf
          refine ⟨_, rfl, (addOF_builds hb rfl rfl rfl hr hd hs).mono fun _ hx =>
            hx.congr fun _ _ => ?_⟩
          exact (saddOverflow_eq_signs ..).symm
      | _ => exact result_computes hb rfl hr hn hf
  | sub hn hr hd hs =>
      cases f with
      | cf =>
          cases hf
          exact ⟨_, rfl, hb.compare .ult rfl hd hs⟩
      | of =>
          cases hf
          refine ⟨_, rfl, (subOF_builds hb rfl rfl rfl hr hd hs).mono fun _ hx =>
            hx.congr fun _ _ => ?_⟩
          exact (ssubOverflow_eq_signs ..).symm
      | _ => exact result_computes hb rfl hr hn hf
  | logic hn hr =>
      cases f with
      | cf | of =>
          cases hf
          exact ⟨_, rfl, hb.bool false rfl⟩
      | _ => exact result_computes hb rfl hr hn hf
  | @inc n d er ed es hn hr =>
      cases f with
      | cf => cases hf
      | of =>
          cases hf
          have hset : (FlagOperation.set .inc (some er) ed es).result = some er := rfl
          have hof := stepOF_builds hb hset hr
            fun n => (1 : BitVec n) <<< (n - 1)
          refine ⟨_, rfl, hof.mono fun _ hx => hx.congr fun _ _ => ?_⟩
          exact (saddOverflow_one _ (by omega)).symm
      | _ => exact result_computes hb rfl hr hn hf
  | @dec n d er ed es hn hr =>
      cases f with
      | cf => cases hf
      | of =>
          cases hf
          have hset : (FlagOperation.set .dec (some er) ed es).result = some er := rfl
          have hof := stepOF_builds hb hset hr
            fun n => ((1 : BitVec n) <<< (n - 1)) - 1
          refine ⟨_, rfl, hof.mono fun _ hx => hx.congr fun _ _ => ?_⟩
          exact (ssubOverflow_one _ (by omega)).symm
      | _ => exact result_computes hb rfl hr hn hf
  | rol hn hr =>
      cases f with
      | cf =>
          cases hf
          refine ⟨_, rfl, (bitCF_builds hb (createLsb_builds hb hr)).mono fun _ hx =>
            hx.congr fun _ _ => ?_⟩
          exact getLsbD_rotateLeft_one _ (by omega)
      | of =>
          cases hf
          refine ⟨_, rfl, (rolOF_builds hb rfl hr).mono fun _ hx => hx.congr fun _ _ => ?_⟩
          rw [getLsbD_rotateLeft_one _ (by omega)]
      | _ => cases hf
  | ror hn hr =>
      cases f with
      | cf =>
          cases hf
          refine ⟨_, rfl, (bitCF_builds hb (createMsb_builds hb hr)).mono fun _ hx =>
            hx.congr fun _ _ => ?_⟩
          exact msb_rotateRight_one _ (by omega)
      | of =>
          cases hf
          exact ⟨_, rfl, rorOF_builds hb rfl hr (by omega)⟩
      | _ => cases hf
  | bt hr =>
      cases f with
      | cf =>
          cases hf
          exact ⟨_, rfl, Total.ret hr⟩
      | _ => cases hf

end Performs

/-- **Flags of an operation.** From the result and the operands that are stored, the symbolic
chain computes every flag that the operation defines, for all values at once; a flag that it
does not define is not in its mask. -/
theorem compute_isFlag (σ : Session) (w : World) {s : FlagSet} {op : Input → Operation}
    (h : ∀ ρ, Performs ρ s (op ρ)) (f : Eflag) :
    (∀ ρ, s.kind.defines f = ((op ρ).flag f).isSome) ∧
      (s.kind.defines f = true →
        ∃ p e w', s.operation.compute SymbolicExprBuilder.chain s.kind f = some p ∧
          Runs (body σ) p w e w' ∧ e.isBoolean = true ∧ ∀ ρ, (op ρ).flag f = some (e.truth ρ)) := by
  refine ⟨fun ρ => (h ρ).defines_eq f, fun hdef => ?_⟩
  have hflag (ρ : Input) : ∃ v, (op ρ).flag f = some v :=
    Option.isSome_iff_exists.1 (((h ρ).defines_eq f).symm.trans hdef)
  -- the run is the same for all inputs
  obtain ⟨v₀, hv₀⟩ := hflag fun _ => 0
  obtain ⟨p, hp, hbuilds⟩ := (h _).computes (chain_soundSimply σ _) hv₀
  obtain ⟨e, w', hr, -, he⟩ := hbuilds w trivial fun _ _ => trivial
  refine ⟨p, e, w', hp, hr, he.isBool.isBoolean, fun ρ => ?_⟩
  obtain ⟨v, hv⟩ := hflag ρ
  obtain ⟨p', hp', hbuilds'⟩ := (h ρ).computes (chain_soundSimply σ _) hv
  obtain rfl := Option.some.inj (hp.symm.trans hp')
  obtain ⟨e', w'', hr', -, he'⟩ := hbuilds' w trivial fun _ _ => trivial
  obtain ⟨rfl, -⟩ := hr.unique hr'
  rw [hv, he'.truth ρ rfl]

/-- `ADD` of two input bytes. -/
theorem compute_isFlag_addBytes :
    ∃ p e w', (FlagSet.mk .add (some (.binary 1 .add (.read 0) (.read 1))) (some (.read 0))
        (some (.read 1))).operation.compute SymbolicExprBuilder.chain .add .of = some p ∧
      Runs (body quietSession) p (freshWorld 2) e w' ∧ e.isBoolean = true ∧
        ∀ ρ : Input, (Operation.add 8 (ρ 0) (ρ 1)).flag .of = some (e.truth ρ) := by
  have hread (ρ : Input) (i : Nat) : Denotes (· = ρ) 8 (fun _ => ρ i) (.read i) :=
    ⟨⟨trivial, rfl, rfl⟩, by rintro _ rfl; simp [Expr.bv, value]⟩
  have hsum (ρ : Input) : Denotes (· = ρ) 8 (fun _ => ρ 0 + ρ 1)
      (.binary 1 .add (.read 0) (.read 1)) :=
    ⟨isBV_binary rfl (hread ρ 0).isBV (hread ρ 1).isBV 1, by
      rintro _ rfl
      refine (bv_binary (n := 8) _ 1 .add rfl).trans ?_
      rw [(hread _ 0).bv _ rfl, (hread _ 1).bv _ rfl]
      rfl⟩
  exact (compute_isFlag quietSession (freshWorld 2)
    (fun ρ => .add (Nat.le_refl 8) (hsum ρ) (hread ρ 0) (hread ρ 1)) .of).2 rfl

end Qsym
