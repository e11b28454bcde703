import Qsym.Builder.Sound
import Qsym.Flags.Eflags

/-!
# Qsym.Flags.Methods

What the methods of `FlagOperation` build. Each method is followed through its calls
once, in terms of what its operands denote; that the outcome is the flag of an
operation is a matter of bit vectors alone and comes with the operations.
-/

namespace Qsym

open Procedure Qsym.Expr

/-- The expression is there, and holds with `p`. -/
def Says (E : Input → Prop) (p : Input → Bool) (r : Option Expr) : Prop :=
  ∃ e, r = some e ∧ Decides E p e

/-- The parity flag of a result: an even number of ones in the low byte. -/
def evenParity {n : Nat} (v : BitVec n) : Bool :=
  (List.range 8).countP (fun i => v.getLsbD i) % 2 == 0

namespace FlagOperation

variable {σ : Session} {ok : MethodCall → Prop} {E : Input → Prop} {b : ExprBuilder}
variable {n : Nat} {e er ed es : Expr} {v r d s : Input → BitVec n} {p q : Input → Bool}

@[simp] theorem deref_some (e : Expr) : deref (some e) = .ret e := rfl

variable (hb : SoundSimply σ ok E b)

include hb

/-! ### Single bits -/

theorem extract_bit_builds (he : Denotes E n v e) {i : Nat} (hi : i < n) :
    Builds σ ok (b.createExtract e i 1)
      (Denotes E 1 fun ρ => BitVec.ofBool ((v ρ).getLsbD i)) := by
  refine (hb.extract rfl he Nat.one_pos hi).mono fun x hx => hx.congr fun ρ _ => ?_
  ext j hj
  obtain rfl : j = 0 := by omega
  simp

theorem createMsb_builds (he : Denotes E n v e) :
    Builds σ ok (createMsb b e) (Denotes E 1 fun ρ => BitVec.ofBool (v ρ).msb) := by
  have hn := he.isBV.pos
  rw [createMsb, he.bits]
  refine (extract_bit_builds hb he (by omega)).mono fun x hx => hx.congr fun ρ _ => ?_
  rw [BitVec.msb_eq_getLsbD_last]

theorem createLsb_builds (he : Denotes E n v e) :
    Builds σ ok (createLsb b e) (Denotes E 1 fun ρ => BitVec.ofBool ((v ρ).getLsbD 0)) :=
  extract_bit_builds hb he he.isBV.pos

theorem bitToBool_builds (he : Denotes E 1 (fun ρ => BitVec.ofBool (p ρ)) e) :
    Builds σ ok (bitToBool b e) (Decides E p) := by
  rw [bitToBool, if_pos he.bits, he.bits]
  refine Total.bind (hb.constant _ rfl Nat.one_pos) fun one hone => ?_
  refine (hb.compare .equal rfl he hone).mono fun x hx => hx.congr fun ρ _ => ?_
  cases p ρ <;> rfl

theorem bitCF_builds {bit : ExprBuilder → Expr → Build Expr}
    (he : Builds σ ok (bit b e) (Denotes E 1 fun ρ => BitVec.ofBool (p ρ))) :
    Builds σ ok (bitCF b (some e) bit) (Decides E p) := by
  rw [bitCF]
  simp only [deref_some, Program.bind_eq, Program.ret_bind]
  exact Total.bind he fun x hx => bitToBool_builds hb hx

theorem xor_bits_builds (hl : Denotes E 1 (fun ρ => BitVec.ofBool (p ρ)) e)
    (hr : Denotes E 1 (fun ρ => BitVec.ofBool (q ρ)) es) :
    Builds σ ok (b.createXor e es) (Denotes E 1 fun ρ => BitVec.ofBool (p ρ ^^ q ρ)) :=
  (hb.binary (k := .xor) rfl rfl hl hr).mono fun _ hx => hx.congr fun _ _ =>
    BitVec.ofBool_xor_ofBool

theorem and_bits_builds (hl : Denotes E 1 (fun ρ => BitVec.ofBool (p ρ)) e)
    (hr : Denotes E 1 (fun ρ => BitVec.ofBool (q ρ)) es) :
    Builds σ ok (b.createAnd e es) (Denotes E 1 fun ρ => BitVec.ofBool (p ρ && q ρ)) :=
  (hb.binary (k := .and) rfl rfl hl hr).mono fun _ hx => hx.congr fun _ _ =>
    BitVec.ofBool_and_ofBool

/-! ### The flags of a result -/

section Result

variable {op : FlagOperation} (hop : op.result = some er) (hr : Denotes E n r er)

include hop hr

theorem computeZF_builds :
    Builds σ ok (op.computeZF b) (Decides E fun ρ => r ρ == 0) := by
  rw [computeZF, hop]
  simp only [deref_some, Program.bind_eq, Program.ret_bind, hr.bits]
  exact Total.bind (hb.constant _ rfl hr.isBV.pos) fun zero hzero => hb.compare .equal rfl hr hzero

theorem computeSF_builds :
    Builds σ ok (op.computeSF b) (Decides E fun ρ => (r ρ).msb) := by
  rw [computeSF, hop]
  simp only [deref_some, Program.bind_eq, Program.ret_bind, hr.bits]
  refine Total.bind (hb.constant _ rfl hr.isBV.pos) fun zero hzero => ?_
  refine (hb.compare .slt rfl hr hzero).mono fun x hx => hx.congr fun ρ _ => ?_
  exact BitVec.slt_zero_eq_msb

omit hop in
/-- The loop accumulates the exclusive or of the bits. -/
theorem xorBits_builds {is : List Nat} (his : ∀ i ∈ is, i < n)
    (he : Denotes E 1 (fun ρ => BitVec.ofBool (p ρ)) e) :
    Builds σ ok (xorBits b er e is)
      (Denotes E 1 fun ρ => BitVec.ofBool (is.foldl (fun a i => (r ρ).getLsbD i ^^ a) (p ρ))) := by
  induction is generalizing e p with
  | nil => exact Total.ret he
  | cons i is ih =>
      obtain ⟨hi, his⟩ := List.forall_mem_cons.1 his
      refine Total.bind (extract_bit_builds hb hr hi) fun bit hbit => ?_
      exact Total.bind (xor_bits_builds hb hbit he) fun acc hacc => ih his hacc

omit hb hop hr in
theorem evenParity_eq (v : BitVec n) :
    evenParity v =
      !([1, 2, 3, 4, 5, 6, 7].foldl (fun a i => v.getLsbD i ^^ a) (v.getLsbD 0)) := by
  have h : ∀ b0 b1 b2 b3 b4 b5 b6 b7 : Bool,
      ([b0, b1, b2, b3, b4, b5, b6, b7].countP id % 2 == 0) =
        !(b7 ^^ (b6 ^^ (b5 ^^ (b4 ^^ (b3 ^^ (b2 ^^ (b1 ^^ b0))))))) := by
    decide
  exact (h ..).symm ▸ rfl

theorem computePF_builds (hn : 8 ≤ n) :
    Builds σ ok (op.computePF b) (Decides E fun ρ => evenParity (r ρ)) := by
  rw [computePF, hop]
  refine Total.bind (hb.constant _ rfl Nat.one_pos) fun zero hzero => ?_
  simp only [deref_some, Program.bind_eq, Program.ret_bind]
  refine Total.bind (extract_bit_builds hb hr (i := 0) (by omega)) fun bit hbit => ?_
  have his : ∀ i ∈ [1, 2, 3, 4, 5, 6, 7], i < n := by
    intro i hi
    simp only [List.mem_cons, List.not_mem_nil, or_false] at hi
    omega
  refine Total.bind (xorBits_builds hb hr his hbit) fun res hres => ?_
  refine (hb.compare .equal rfl hzero hres).mono fun x hx => hx.congr fun ρ _ => ?_
  rw [evenParity_eq]
  cases [1, 2, 3, 4, 5, 6, 7].foldl (fun a i => (r ρ).getLsbD i ^^ a) ((r ρ).getLsbD 0) <;> rfl

theorem stepOF_builds (c : (n : Nat) → BitVec n) :
    Builds σ ok (op.stepOF b c) (Decides E fun ρ => r ρ == c n) := by
  obtain rfl := hr.bits
  rw [stepOF, hop]
  simp only [deref_some, Program.bind_eq, Program.ret_bind]
  exact Total.bind (hb.constant _ rfl hr.isBV.pos) fun imm himm => hb.compare .equal rfl hr himm

theorem rolOF_builds :
    Builds σ ok (op.rolOF b) (Decides E fun ρ => (r ρ).msb ^^ (r ρ).getLsbD 0) := by
  rw [rolOF, hop]
  simp only [deref_some, Program.bind_eq, Program.ret_bind]
  refine Total.bind (createMsb_builds hb hr) fun x hx => ?_
  refine Total.bind (createLsb_builds hb hr) fun y hy => ?_
  exact Total.bind (xor_bits_builds hb hx hy) fun z hz => bitToBool_builds hb hz

theorem rorOF_builds (hn : 2 ≤ n) :
    Builds σ ok (op.rorOF b) (Decides E fun ρ => (r ρ).msb ^^ (r ρ).getLsbD (n - 2)) := by
  rw [rorOF, hop]
  simp only [deref_some, Program.bind_eq, Program.ret_bind, hr.bits]
  refine Total.bind (createMsb_builds hb hr) fun x hx => ?_
  refine Total.bind (extract_bit_builds hb hr (by omega)) fun y hy => ?_
  exact Total.bind (xor_bits_builds hb hx hy) fun z hz => bitToBool_builds hb hz

end Result

/-! ### Carry and overflow of sums, differences and shifts -/

section Operands

variable {op : FlagOperation} (hop : op.result = some er) (hopd : op.dst = some ed)
  (hops : op.src = some es)
variable (hr : Denotes E n r er) (hd : Denotes E n d ed) (hs : Denotes E n s es)

include hop hopd hops hr hd hs

theorem addOF_builds :
    Builds σ ok (op.addOF b)
      (Decides E fun ρ => !((d ρ).msb ^^ (s ρ).msb) && ((r ρ).msb ^^ (d ρ).msb)) := by
  rw [addOF, hop, hopd, hops]
  simp only [deref_some, Program.bind_eq, Program.ret_bind]
  refine Total.bind (hb.binary (k := .xor) rfl rfl hd hs) fun x hx => ?_
  refine Total.bind (hb.unary (k := .not) rfl nofun hx) fun x hx => ?_
  refine Total.bind (createMsb_builds hb hx) fun x hx => ?_
  refine Total.bind (hb.binary (k := .xor) rfl rfl hr hd) fun y hy => ?_
  refine Total.bind (createMsb_builds hb hy) fun y hy => ?_
  refine Total.bind (and_bits_builds hb hx hy) fun z hz => ?_
  refine (bitToBool_builds hb hz).mono fun x hx => hx.congr fun ρ _ => ?_
  simp [UnaryKind.apply, BinaryKind.apply, hr.isBV.pos]

theorem subOF_builds :
    Builds σ ok (op.subOF b)
      (Decides E fun ρ => ((d ρ).msb ^^ (s ρ).msb) && ((r ρ).msb ^^ (d ρ).msb)) := by
  rw [subOF, hop, hopd, hops]
  simp only [deref_some, Program.bind_eq, Program.ret_bind]
  refine Total.bind (hb.binary (k := .xor) rfl rfl hd hs) fun x hx => ?_
  refine Total.bind (createMsb_builds hb hx) fun x hx => ?_
  refine Total.bind (hb.binary (k := .xor) rfl rfl hr hd) fun y hy => ?_
  refine Total.bind (createMsb_builds hb hy) fun y hy => ?_
  refine Total.bind (and_bits_builds hb hx hy) fun z hz => ?_
  refine (bitToBool_builds hb hz).mono fun x hx => hx.congr fun ρ _ => ?_
  simp [BinaryKind.apply]

end Operands

theorem shiftOF_builds {op : FlagOperation} (hop : op.result = some er) (hopd : op.dst = some ed)
    (hr : Denotes E n r er) (hd : Denotes E n d ed) :
    Builds σ ok (op.shiftOF b) (Decides E fun ρ => (r ρ).msb ^^ (d ρ).msb) := by
  rw [shiftOF, hop, hopd]
  simp only [deref_some, Program.bind_eq, Program.ret_bind]
  refine Total.bind (hb.binary (k := .xor) rfl rfl hr hd) fun x hx => ?_
  refine Total.bind (createMsb_builds hb hx) fun y hy => ?_
  refine (bitToBool_builds hb hy).mono fun z hz => hz.congr fun ρ _ => ?_
  simp [BinaryKind.apply]

end FlagOperation

end Qsym
