import Qsym.Flags.Recorded
import Qsym.Instrument.Result

/-!
# Qsym.Instrument.BitTest

`BT`, `BTS`, `BTR` and `BTC`. The carry is the selected bit. The mask of the other three is
made as an `int`, which has 32 bits, and widened with its sign, so for an offset from 31 on a
destination of 64 bits is changed at other bits too, or instead (`Stray`).
-/

namespace X86

open Qsym

variable {n : Nat}

/-- The destination with the selected bit kept, set, reset or complemented. -/
def bitTest (d : BitVec n) (i : Nat) : BtKind → BitVec n
  | .invalid => d
  | .or => d ||| BitVec.twoPow n i
  | .and => d &&& ~~~BitVec.twoPow n i
  | .xor => d ^^^ BitVec.twoPow n i

/-- The bits that an `int` selects in place of bit `i`: these, and not that one, are the
bits in which the two masks differ. -/
def Stray (n i j : Nat) : Prop :=
  n = 64 ∧ (i = 31 ∧ 31 < j ∨ i = 63 ∧ 31 ≤ j ∧ j < 63 ∨ 31 < i ∧ i < 63 ∧ (j = i ∨ j = i - 32))

/-- The stray bits make no difference. -/
def BitFits (d : BitVec n) (i : Nat) : BtKind → Prop
  | .invalid => True
  | .or => ∀ j < n, Stray n i j → d.getLsbD j = true
  | .and => ∀ j < n, Stray n i j → d.getLsbD j = false
  | .xor => n = 64 → i < 31

/-- The mask for bit `i`. -/
def bitMask (n i : Nat) : BitVec n :=
  BitVec.ofNat n (BtKind.bit i).toNat

theorem getLsbD_bit (i j : Nat) : (BtKind.bit i).getLsbD j =
    decide (j < 64 ∧ if j < 32 then j = i % 32 else i % 32 = 31) := by
  have hlt : i % 32 < 32 := Nat.mod_lt i (by decide)
  have hone : (1 : BitVec 32) <<< (i % 32) = BitVec.twoPow 32 (i % 32) := rfl
  rw [BtKind.bit, hone, BitVec.getLsbD_signExtend, BitVec.getLsbD_twoPow, BitVec.msb_twoPow,
    Bool.eq_iff_iff]
  split <;> simp <;> omega

theorem getLsbD_bitMask {i j : Nat} (hn : n ∈ [16, 32, 64]) (hi : i < n) (hj : j < n) :
    (bitMask n i).getLsbD j ≠ (BitVec.twoPow n i).getLsbD j ↔ Stray n i j := by
  have hmask : (bitMask n i).getLsbD j = (BtKind.bit i).getLsbD j := by
    rw [bitMask, BitVec.getLsbD_ofNat, decide_eq_true hj, Bool.true_and, BitVec.testBit_toNat]
  simp only [List.mem_cons, List.not_mem_nil, or_false] at hn
  rw [hmask, getLsbD_bit, BitVec.getLsbD_twoPow, Ne, Bool.eq_iff_iff, Stray]
  simp only [decide_eq_true_eq, Bool.and_eq_true]
  split <;> omega

/-- What the handler puts into the destination. -/
def bitTested (d : BitVec n) (i : Nat) : BtKind → BitVec n
  | .invalid => d
  | .or => d ||| bitMask n i
  | .and => d &&& ~~~bitMask n i
  | .xor => d ^^^ bitMask n i

/-- Two results agree if they do where the masks differ. -/
theorem bitTested_eq_iff (hn : n ∈ [16, 32, 64]) {i : Nat} (hi : i < n) (d : BitVec n)
    (kind : BtKind) :
    bitTested d i kind = bitTest d i kind ↔ BitFits d i kind := by
  have hext {v w : BitVec n} {p : Nat → Prop} (hbits : ∀ j < n, v.getLsbD j = w.getLsbD j ↔ p j) :
      v = w ↔ ∀ j < n, p j := by
    constructor
    · intro h j hj
      exact (hbits j hj).1 (by rw [h])
    · intro h
      exact BitVec.eq_of_getLsbD_eq fun j hj => (hbits j hj).2 (h j hj)
  have hbit (j : Nat) (hj : j < n) := getLsbD_bitMask hn hi hj
  cases kind with
  | invalid => exact iff_of_true rfl trivial
  | or =>
      refine hext fun j hj => ?_
      rw [← hbit j hj, bitTested, bitTest, BitVec.getLsbD_or, BitVec.getLsbD_or]
      cases d.getLsbD j <;> simp
  | and =>
      refine hext fun j hj => ?_
      rw [← hbit j hj, bitTested, bitTest, BitVec.getLsbD_and, BitVec.getLsbD_and,
        BitVec.getLsbD_not, BitVec.getLsbD_not]
      cases d.getLsbD j <;> simp [hj]
  | xor =>
      have hxor : bitTested d i .xor = bitTest d i .xor ↔ ∀ j < n, ¬ Stray n i j := by
        refine hext fun j hj => ?_
        rw [← hbit j hj, bitTested, bitTest, BitVec.getLsbD_xor, BitVec.getLsbD_xor]
        cases d.getLsbD j <;> simp
      rw [hxor, BitFits]
      constructor
      · intro h h64
        have h32 := h 32
        have hself := h i hi
        rw [Stray] at h32 hself
        omega
      · intro h j hj hstray
        obtain ⟨h64, hstray⟩ := hstray
        have hlt := h h64
        omega

end X86

namespace Qsym

open Procedure X86

/-- The operands of the handlers of bit tests on registers. -/
inductive BtForm (Reg : Type)
  | regReg (dst src : Reg)
  | regImm (dst : Reg) (imm : Addr)

namespace BtForm

variable {Reg : Type} [DecidableEq Reg] (T : Process Reg)

def handler (kind : BtKind) : BtForm Reg → Handler Reg Unit
  | regReg dst src => T.instrumentBtRegReg dst src kind
  | regImm dst imm => T.instrumentBtRegImm dst imm kind

def dstReg : BtForm Reg → Reg
  | regReg dst _ | regImm dst _ => dst

def dst (form : BtForm Reg) : Operand Reg :=
  .reg form.dstReg

/-- The offset in the process. -/
def offset : BtForm Reg → Nat
  | regReg _ src => T.getRegValue src
  | regImm _ imm => imm.toNat

/-- The register of the offset has the size of the destination. -/
def Sized : BtForm Reg → Prop
  | regReg dst src => T.pin.regSize src = T.pin.regSize dst
  | regImm _ _ => True

/-- The input gives the register of the offset the value that it has in the process, as the
handler asks for. -/
def Agrees (v : ShadowMap Reg) (ρ : Input) : BtForm Reg → Prop
  | regReg _ src => ∀ k ∈ (Operand.reg src).places T, T.byteValue v ρ k = (T.byteAt k).toNat
  | regImm _ _ => True

/-- The destination is left with the value `w`, which `BT` does not write. -/
def Leaves (v : ShadowMap Reg) (form : BtForm Reg) (ρ : Input) (kind : BtKind)
    (w : BitVec (form.dst.size T * 8)) : Prop :=
  if kind = .invalid then form.dst.bv T v ρ = w else T.Shows v form.dst ρ w

/-- The registers have cells. -/
def Ready : BtForm Reg → Prop
  | regReg dst src => T.Tracked dst ∧ T.Tracked src
  | regImm dst _ => T.Tracked dst

variable {T} {v : ShadowMap Reg} {form : BtForm Reg} {ρ : Input} {kind : BtKind}

theorem Ready.dst (h : form.Ready T) : T.Tracked form.dstReg := by
  cases form with
  | regReg => exact h.1
  | regImm => exact h

omit [DecidableEq Reg] in
theorem Leaves.iff_eq {w w' : BitVec (form.dst.size T * 8)} (h : form.Leaves T v ρ kind w) :
    form.Leaves T v ρ kind w' ↔ w = w' := by
  unfold Leaves at h ⊢
  split at h
  next hkind => rw [if_pos hkind, h]
  next hkind =>
      rw [if_neg hkind]
      exact h.iff_eq

end BtForm

namespace Process

open Handler Stateful
open SymbolicExprBuilder (chain)

variable {Reg : Type} [DecidableEq Reg] {T : Process Reg} {σ : Session} {s : Shadow} {ρ : Input}
variable {n i : Nat} {dst : Expr} {d : Input → BitVec n} {v v' : ShadowMap Reg} {o : Operand Reg}

/-! ### What the handler builds -/

/-- The result, if there is one, and the condition that is recorded. -/
structure BitTested (n i : Nat) (d : Input → BitVec n) (kind : BtKind) (e e' : Eflags)
    (x : Option Expr) : Prop where
  flags : ∃ bit, e' = e.set .bt (some bit) none none ∧
    Decides (fun _ => True) (fun ρ => (d ρ).getLsbD i) bit
  result : match x with
    | none => kind = .invalid
    | some res => kind ≠ .invalid ∧ Expresses n (fun ρ => bitTested (d ρ) i kind) res

theorem bitMask_and (hn : n ≤ 64) (i : Nat) :
    BitVec.ofNat n (BtKind.mask .and i).toNat = ~~~bitMask n i := by
  rw [BtKind.mask, bitMask, BitVec.ofNat_toNat, BitVec.ofNat_toNat, BitVec.setWidth_not hn]

theorem doBt_tested (hb : T.builder = chain) (hd : Expresses n d dst) (hn : n ∈ [16, 32, 64])
    (kind : BtKind) : Achieves (body σ) exactly (T.doBt dst i n kind) s fun x s' _ =>
      (s'.memory = s.memory ∧ T.peek s' = T.peek s) ∧
        BitTested n (i % n) d kind s.eflags s'.eflags x := by
  have himm : i &&& (n - 1) = i % n := by
    simp only [List.mem_cons, List.not_mem_nil, or_false] at hn
    rcases hn with rfl | rfl | rfl
    · exact Nat.and_two_pow_sub_one_eq_mod i 4
    · exact Nat.and_two_pow_sub_one_eq_mod i 5
    · exact Nat.and_two_pow_sub_one_eq_mod i 6
  have hn : 0 < n ∧ n ≤ 64 := by
    simp only [List.mem_cons, List.not_mem_nil, or_false] at hn
    omega
  have hlt : i % n < n := Nat.mod_lt i hn.1
  unfold doBt
  rw [hb, himm]
  have hsimply := chain_soundSimply σ fun _ => True
  refine Achieves.lift_bind (Total.of_true (FlagOperation.extract_bit_builds hsimply
    hd.toDenotes hlt)) fun bit hbit => ?_
  have hbool : Builds σ exactly (FlagOperation.bitToBool chain bit)
      (Decides (fun _ => True) fun ρ => (d ρ).getLsbD (i % n)) :=
    Total.of_true (FlagOperation.bitToBool_builds hsimply hbit)
  refine Achieves.lift_bind hbool fun bit hbit => onEflags_bind ?_
  have hop (op : BinaryKind) (hop : op ≠ .sdiv ∧ op.isLogical = false) (hkind : kind ≠ .invalid)
      (hres : ∀ ρ, op.apply (d ρ) (BitVec.ofNat n (kind.mask (i % n)).toNat) =
        bitTested (d ρ) (i % n) kind) :
      Achieves (body σ) exactly (do
        let mask ← chain.createConstant (kind.mask (i % n)).toNat n
        let dst ← chain.createBinaryExpr op dst mask
        return some dst : Handler Reg (Option Expr))
        { s with eflags := s.eflags.set .bt (some bit) none none } fun x s' _ =>
          (s'.memory = s.memory ∧ T.peek s' = T.peek s) ∧
            BitTested n (i % n) d kind s.eflags s'.eflags x := by
    refine Achieves.lift_bind (Expresses.createConstant_builds _ hn.1) fun mask hmask => ?_
    refine Achieves.lift_bind (hd.binary_builds hop.1 hop.2 hmask) fun res hres' => ?_
    exact .ret ⟨⟨rfl, rfl⟩, ⟨bit, rfl, hbit⟩, hkind, hres'.congr hres⟩
  cases kind with
  | invalid => exact .ret ⟨⟨rfl, rfl⟩, ⟨bit, rfl, hbit⟩, rfl⟩
  | or => exact hop .or ⟨nofun, rfl⟩ nofun fun _ => rfl
  | xor => exact hop .xor ⟨nofun, rfl⟩ nofun fun _ => rfl
  | and =>
      refine hop .and ⟨nofun, rfl⟩ nofun fun _ => ?_
      rw [bitMask_and hn.2]
      rfl

/-- After the offset has been looked at: nothing of the destination depends on the input, or the
carry is the bit, and the destination is written unless it is only tested. -/
theorem bitTest_tested (hP : T.pin.Documented) (hb : T.builder = chain)
    (hn : o.size T ∈ [2, 4, 8]) (hw : T.Writable s o) (i : Nat) {x : Option Expr}
    (hx : T.Fetched v o x) (hnone : x = none → T.Empty (T.peek s) [o]) (kind : BtKind) :
    Achieves (body σ) exactly (T.bitTest x i (o.size T * 8) kind fun y => o.set T y) s
      fun _ s' _ => ((∀ k ∈ o.places T, ¬ Symbolic v k) ∧ T.Empty (T.peek s') [o]) ∨
        (∀ ρ, s'.eflags.Reports σ ρ .cf ((o.bv T v ρ).getLsbD (i % (o.size T * 8)))) ∧
        if kind = .invalid then T.peek s' = T.peek s else T.Puts (T.peek s) (T.peek s') o
          fun ρ => bitTested (o.bv T v ρ) (i % (o.size T * 8)) kind := by
  have hbits : o.size T * 8 ∈ [16, 32, 64] := by
    simp only [List.mem_cons, List.not_mem_nil, or_false] at hn ⊢
    omega
  have hsize : o.size T ≤ 2 ^ 64 := by
    simp only [List.mem_cons, List.not_mem_nil, or_false] at hn
    omega
  cases x with
  | none => exact Total.ret (.inl ⟨hx, hnone rfl⟩)
  | some dst =>
      refine Achieves.bind (doBt_tested hb hx hbits kind) fun y s₁ _ ⟨⟨hm, hs₁⟩, htested⟩ => ?_
      obtain ⟨bit, hset, hbit⟩ := htested.flags
      have hcf (ρ : Input) :
          s₁.eflags.Reports σ ρ .cf ((o.bv T v ρ).getLsbD (i % (o.size T * 8))) := by
        have hperf : Performs ρ ⟨.bt, some bit, none, none⟩ (.bt _ (o.bv T v ρ) i) :=
          .bt ⟨hbit.isBool, fun ρ' hρ' => hρ' ▸ hbit.truth ρ' trivial⟩
        exact hset ▸ hperf.reports rfl s.eflags
      have hresult := htested.result
      cases y with
      | none =>
          obtain rfl : kind = .invalid := hresult
          exact .ret (.inr ⟨hcf, hs₁⟩)
      | some res =>
          have hw₁ : T.Writable s₁ o := hw.of_samePages (hm ▸ .refl _)
          refine (set_achieves hP hb hw₁ hsize hresult.2).mono
            fun _ s' _ ⟨heq, hputs⟩ => .inr ⟨?_, ?_⟩
          · exact heq ▸ hcf
          · rw [if_neg hresult.1]
            exact hs₁ ▸ hputs

/-! ### The offset -/

/-- What concretising does at a place. -/
theorem Concretized.place {s' : Shadow} {l : List (Request Reg)} {k : Place Reg}
    (h : T.Concretized s o s' l) (hk : k ∈ o.dropped T → k ∈ o.places T) :
    k ∈ o.places T ∧ T.peek s' k = none ∨ T.peek s' k = T.peek s k := by
  by_cases hnull : T.ReadsNull (T.peek s) o
  · have hcleared := (h.null hnull).2
    by_cases hplace : k ∈ o.places T
    · exact .inl ⟨hplace, hcleared.empty k hplace⟩
    · exact .inr (hcleared.same k hplace)
  · have hcleared := (h.equation hnull).2
    by_cases hdropped : k ∈ o.dropped T
    · exact .inl ⟨hk hdropped, hcleared.empty k hdropped⟩
    · exact .inr (hcleared.same k hdropped)

/-- What has been concretised still has the value that it had. -/
theorem Concretized.byteValue {s' : Shadow} {l : List (Request Reg)} {k : Place Reg}
    (h : T.Concretized s o s' l) (hk : k ∈ o.dropped T → k ∈ o.places T)
    (hagrees : ∀ k ∈ o.places T, T.byteValue (T.peek s) ρ k = (T.byteAt k).toNat) :
    T.byteValue (T.peek s') ρ k = T.byteValue (T.peek s) ρ k := by
  rcases h.place hk with ⟨hplace, hnone⟩ | hsame
  · rw [hagrees k hplace, Process.byteValue, hnone]
  · rw [Process.byteValue, Process.byteValue, hsame]

omit [DecidableEq Reg] in
/-- Registers of one size overlap in the bytes that they name. -/
theorem places_of_dropped (hP : T.pin.Documented) {r r' : Reg} {k : Place Reg}
    (hsize : T.pin.regSize r' = T.pin.regSize r) (hk : k ∈ (Operand.reg r).places T)
    (hd : k ∈ (Operand.reg r').dropped T) : k ∈ (Operand.reg r').places T := by
  rw [Operand.dropped] at hd
  split at hd
  next h32 =>
      have h4 := (hP.gr32 r' h32).1
      have hlow (r : Reg) (h4 : T.pin.regSize r = 4) : T.pin.regIsUpper8 r = false := by
        by_contra hupper
        have := (hP.upper8 r (by simpa using hupper)).1
        omega
      rw [places_reg, hlow r (hsize ▸ h4), mem_regPlaces_iff] at hk
      obtain ⟨j, rfl, -, hlt⟩ := hk
      obtain ⟨j', hj, -⟩ := mem_regPlaces_iff.1 hd
      obtain ⟨hfull, rfl⟩ := Place.reg.inj hj
      rw [places_reg, hlow r' h4, mem_regPlaces_iff]
      exact ⟨j, by rw [hfull], Nat.zero_le j, hsize ▸ hlt⟩
  next => exact hd

/-! ### The handlers -/

/-- Nothing of the destination depends on the input, or the carry is the selected bit and the
destination has the value that is put into it. -/
def BtResult (σ : Session) (T : Process Reg) (v : ShadowMap Reg) (form : BtForm Reg) (kind : BtKind)
    (s' : Shadow) : Prop :=
  ((∀ k ∈ form.dst.places T, ¬ Symbolic v k) ∧ T.Empty (T.peek s') [form.dst]) ∨
    ∀ ρ, form.Agrees T v ρ →
      s'.eflags.Reports σ ρ .cf
        ((form.dst.bv T v ρ).getLsbD (form.offset T % (form.dst.size T * 8))) ∧
      form.Leaves T (T.peek s') ρ kind
        (bitTested (form.dst.bv T v ρ) (form.offset T % (form.dst.size T * 8)) kind)

section Handlers

variable (hP : T.pin.Documented) (hb : T.builder = SymbolicExprBuilder.chain) (hs : s.WellFormed)
  (hv : T.Consistent σ.input (T.peek s)) (form : BtForm Reg) (hn : form.dst.size T ∈ [2, 4, 8])
  (hsized : form.Sized T)

include hP hb hn

include hs hv hsized

theorem bt_tested (hready : form.Ready T) (kind : BtKind) :
    Achieves (body σ) exactly (form.handler T kind) s fun _ s' _ =>
      BtResult σ T (T.peek s) form kind s' := by
  have htest {x : Option Expr} {s₁ : Shadow} (hx : T.Fetched (T.peek s) form.dst x)
      (hnone : x = none → T.Empty (T.peek s₁) [form.dst])
      (hbv : ∀ ρ, form.Agrees T (T.peek s) ρ →
        form.dst.bv T (T.peek s₁) ρ = form.dst.bv T (T.peek s) ρ) :
      Achieves (body σ) exactly (T.bitTest x (form.offset T) (form.dst.size T * 8) kind
        fun y => form.dst.set T y) s₁ fun _ s' _ => BtResult σ T (T.peek s) form kind s' := by
    refine (bitTest_tested (o := form.dst) hP hb hn hready.dst (form.offset T) hx hnone kind).mono
      fun _ s' _ h => h.imp_right ?_
    rintro ⟨hcf, hput⟩ ρ hagrees
    refine ⟨hcf ρ, ?_⟩
    rw [BtForm.Leaves]
    split at hput
    next hkind =>
        rw [if_pos hkind, hput, hbv ρ hagrees, hkind]
        rfl
    next hkind =>
        rw [if_neg hkind]
        exact hput.shows ρ
  cases form with
  | regImm dst imm =>
      refine Achieves.bind ((getExprFromReg_returns hP hb hs hready).achieves
        (get_gets hP hb (.reg dst) s hs hv)) ?_
      rintro x s₁ _ ⟨h₁, hx, hnone⟩
      exact htest hx hnone fun ρ _ => congrFun (h₁.fades.bv hv (.reg dst)) ρ
  | regReg dst src =>
      refine Achieves.bind ((getExprFromReg_returns hP hb hs hready.1).achieves
        (get_gets hP hb (.reg dst) s hs hv)) ?_
      rintro x s₁ _ ⟨h₁, hx, hnone⟩
      refine Achieves.bind ((concretizeReg_returns hP hb h₁.wellFormed hready.2).achieves
        (concretizeReg_concretized hP hb h₁.wellFormed src)) fun _ s₂ _ h₂ => ?_
      have hplace {k : Place Reg} (hk : k ∈ (Operand.reg dst).places T) :=
        places_of_dropped hP hsized hk
      refine htest hx (fun hx => ?_) fun ρ hagrees => ?_
      · refine List.forall_mem_singleton.2 fun k hk => ?_
        rcases h₂.place (hplace hk) with ⟨-, h⟩ | h
        · exact h
        · exact h.trans (hnone hx _ List.mem_cons_self k hk)
      · have hagrees' : ∀ k ∈ (Operand.reg src).places T,
            T.byteValue (T.peek s₁) ρ k = (T.byteAt k).toNat := by
          intro k hk
          rw [h₁.fades.byteValue hv]
          exact hagrees k hk
        refine Eq.trans ?_ (congrFun (h₁.fades.bv hv (.reg dst)) ρ)
        refine congrArg _ (congrArg _ (List.map_congr_left fun k hk => ?_))
        exact h₂.byteValue (hplace hk) hagrees'

/-- **Bit tests.** For every form, width, destination and offset that the input gives the value
it has in the process: the recorded carry is the selected bit, and the destination has the
value of the machine if and only if `BitFits` holds. -/
theorem instrumentBt_result_iff (hready : form.Ready T) (kind : BtKind) :
    Achieves (body σ) exactly (form.handler T kind) s fun _ s' _ =>
      ((∀ k ∈ form.dst.places T, ¬ Symbolic (T.peek s) k) ∧ T.Empty (T.peek s') [form.dst]) ∨
        ∀ ρ, form.Agrees T (T.peek s) ρ →
          let d := form.dst.bv T (T.peek s) ρ
          let i := form.offset T % (form.dst.size T * 8)
          s'.eflags.Reports σ ρ .cf (d.getLsbD i) ∧
            (form.Leaves T (T.peek s') ρ kind (X86.bitTest d i kind) ↔ BitFits d i kind) := by
  have hbits : form.dst.size T * 8 ∈ [16, 32, 64] := by
    simp only [List.mem_cons, List.not_mem_nil, or_false] at hn ⊢
    omega
  have hpos : form.dst.size T * 8 > 0 := by
    simp only [List.mem_cons, List.not_mem_nil, or_false] at hbits
    omega
  refine (bt_tested hP hb hs hv form hn hsized hready kind).mono fun _ s' _ h => h.imp_right ?_
  intro htested ρ hagrees
  obtain ⟨hcf, hdst⟩ := htested ρ hagrees
  refine ⟨hcf, ?_⟩
  rw [hdst.iff_eq]
  exact bitTested_eq_iff hbits (Nat.mod_lt _ hpos) _ kind

end Handlers

open X86Reg (process shadow)

/-- A bit test of `RAX` at a fixed offset. -/
def btRax (imm : Addr) : BtForm X86Reg :=
  .regImm .rax imm

/-- `BTS RAX, 4` of one. -/
theorem instrumentBt_result_four : ∃ s' l w',
    Runs (body quietSession) (process.instrumentBtRegImm .rax 4 .or (shadow [0])) (freshWorld 1)
      ((), s', l) w' ∧ s'.eflags.Reports quietSession (fun _ => 1) .cf false ∧
      process.Shows (process.peek s') (.reg .rax) (fun _ => 1) (17 : BitVec 64) := by
  have h := instrumentBt_result_iff X86Reg.registers_documented (T := process) rfl
    (X86Reg.shadow_init_wellFormed [0]) (X86Reg.shadow_consistent [0]) (btRax 4) (by decide) trivial
    (X86Reg.tracked (by decide)) .or
  obtain ⟨_, s', l, w', hr, ⟨hnone, -⟩ | htested⟩ :=
    exists_run (n := 40) (w := freshWorld 1) h (by decide +kernel)
  · exact absurd ⟨.read 0, rfl, by decide⟩ (hnone (.reg .rax 0) (by decide))
  · obtain ⟨hcf, hdst⟩ := htested (fun _ => 1) trivial
    refine ⟨s', l, w', hr, hcf, hdst.2 fun j _ hstray => ?_⟩
    have hstray : Stray 64 4 j := hstray
    rw [Stray] at hstray
    omega

/-- `BTS RAX, 31` of one: the upper half is set, too. -/
theorem instrumentBt_not_result : ∃ s' l w',
    Runs (body quietSession) (process.instrumentBtRegImm .rax 31 .or (shadow [0])) (freshWorld 1)
      ((), s', l) w' ∧ process.peek s' (.reg .rax 4) ≠ none ∧
      ¬ process.Shows (process.peek s') (.reg .rax) (fun _ => 1)
        (X86.bitTest (1 : BitVec 64) 31 .or) := by
  have h := bt_tested X86Reg.registers_documented (T := process) rfl
    (X86Reg.shadow_init_wellFormed [0]) (X86Reg.shadow_consistent [0]) (btRax 31)
      (by decide) trivial
    (X86Reg.tracked (by decide)) .or
  obtain ⟨_, s', l, w', hr, ⟨hnone, -⟩ | htested⟩ :=
    exists_run (n := 40) (w := freshWorld 1) h (by decide +kernel)
  · exact absurd ⟨.read 0, rfl, by decide⟩ (hnone (.reg .rax 0) (by decide))
  · have hshows : process.Shows (process.peek s') (.reg .rax) (fun _ => 1) _ :=
      (htested (fun _ => 1) trivial).2
    refine ⟨s', l, w', hr, ?_, fun hselected => ?_⟩
    · obtain ⟨e, he, -⟩ := hshows 4 (by decide)
      exact fun hnone => nomatch hnone.symm.trans he
    · exact absurd (congrArg BitVec.toNat (hshows.iff_eq.1 hselected)) (by decide +kernel)

end Process

/-! ### Destinations in memory -/

/-- The operands of the handlers of bit tests on memory. -/
inductive BtMemForm (Reg : Type)
  | memReg (m : MemArg Reg) (src : Reg)
  | memImm (m : MemArg Reg) (imm : Addr)

namespace BtMemForm

open Process (Mapped)

variable {Reg : Type} [DecidableEq Reg] (T : Process Reg)

def handler (kind : BtKind) : BtMemForm Reg → Handler Reg Unit
  | memReg m src => T.instrumentBtMemReg m src kind
  | memImm m imm => T.instrumentBtMemImm m imm kind

omit [DecidableEq Reg] in
def dst : BtMemForm Reg → Operand Reg
  | memReg m _ | memImm m _ => .mem m.addr m.size

/-- The offset in the process. -/
def offset : BtMemForm Reg → Nat
  | memReg _ src => T.getRegValue src
  | memImm _ imm => imm.toNat

/-- The register has cells, and the memory can be written. -/
def Ready (s : Shadow) : BtMemForm Reg → Prop
  | memReg m src => T.Tracked src ∧ Mapped s.memory m.addr m.size
  | memImm m _ => Mapped s.memory m.addr m.size

end BtMemForm

namespace Process

open Handler Stateful
open SymbolicExprBuilder (chain)

variable {Reg : Type} [DecidableEq Reg] {T : Process Reg} {σ : Session} {s : Shadow}

/-- The destination is left with `w`, which `BT` does not write. -/
def BitLeft (T : Process Reg) (v : ShadowMap Reg) (o : Operand Reg) (ρ : Input) (kind : BtKind)
    (w : BitVec (o.size T * 8)) : Prop :=
  if kind = .invalid then o.bv T v ρ = w else T.Shows v o ρ w

section Handlers

variable (hP : T.pin.Documented) (hb : T.builder = chain) (hs : s.WellFormed)
  (hv : T.Consistent σ.input (T.peek s))
include hP hb hs hv

omit hP in
theorem getExprFromMem_bitTest {m : MemArg Reg} (hP : T.pin.Documented) (hn : m.size ∈ [2, 4, 8])
    (hmapped : Mapped s.memory m.addr m.size) (offset : Nat) (kind : BtKind) :
    Achieves (body σ) exactly (do
      let eDst ← T.getExprFromMem m.addr m.size
      T.bitTest eDst offset (m.size * 8) kind (T.setExprToMem m.addr m.size)) s fun _ s' _ =>
        let o := Operand.mem m.addr m.size
        ((∀ k ∈ o.places T, ¬ Symbolic (T.peek s) k) ∧ T.Empty (T.peek s') [o]) ∨ ∀ ρ,
          let d := o.bv T (T.peek s) ρ
          let i := offset % (o.size T * 8)
          s'.eflags.Reports σ ρ .cf (d.getLsbD i) ∧
            (T.BitLeft (T.peek s') o ρ kind (X86.bitTest d i kind) ↔ BitFits d i kind) := by
  let o : Operand Reg := .mem m.addr m.size
  have hbits : o.size T * 8 ∈ [16, 32, 64] := by
    simp only [List.mem_cons, List.not_mem_nil, or_false] at hn ⊢
    exact hn.imp (congrArg (· * 8)) (Or.imp (congrArg (· * 8)) (congrArg (· * 8)))
  have hpos : 0 < o.size T * 8 := by
    simp only [List.mem_cons, List.not_mem_nil, or_false] at hbits
    omega
  refine Achieves.bind ((getExprFromMem_returns hb hs m.addr m.size).achieves
    (get_gets hP hb o s hs hv)) fun x s₁ _ ⟨h₁, hx, hnone⟩ => ?_
  have htest := bitTest_tested (o := o) (σ := σ) hP hb hn (hmapped.of_samePages h₁.pages) offset hx
    hnone kind
  refine htest.mono fun _ s' _ h => h.imp_right ?_
  rintro ⟨hcf, hput⟩ ρ
  refine ⟨hcf ρ, ?_⟩
  rw [BitLeft, ← bitTested_eq_iff hbits (Nat.mod_lt _ hpos)]
  split at hput
  next hkind =>
      rw [if_pos hkind, hput, h₁.fades.bv hv, hkind]
      rfl
  next hkind =>
      rw [if_neg hkind]
      exact (hput.shows ρ).iff_eq

/-- **Bit tests of memory.** The carry and the destination are as with registers; the offset is
taken modulo the width of the operand, in a register as well, where the machine would go on to
other bytes. -/
theorem instrumentBtMem_result_iff {form : BtMemForm Reg} (hn : form.dst.size T ∈ [2, 4, 8])
    (hready : form.Ready T s) (kind : BtKind) :
    Achieves (body σ) exactly (form.handler T kind) s fun _ s' _ =>
      ((∀ k ∈ form.dst.places T, ¬ Symbolic (T.peek s) k) ∧ T.Empty (T.peek s') [form.dst]) ∨ ∀ ρ,
        let d := form.dst.bv T (T.peek s) ρ
        let i := form.offset T % (form.dst.size T * 8)
        s'.eflags.Reports σ ρ .cf (d.getLsbD i) ∧
          (T.BitLeft (T.peek s') form.dst ρ kind (X86.bitTest d i kind) ↔ BitFits d i kind) := by
  cases form with
  | memImm m imm => exact getExprFromMem_bitTest hb hs hv hP hn hready imm.toNat kind
  | memReg m src =>
      refine ((concretizeReg_returns hP hb hs hready.1).achieves
        ((concretizeReg_concretized hP hb hs src).and (T.concretizeReg_keepsMemory src s))).bind
          fun _ s₁ _ ⟨h₁, hmemory⟩ => ?_
      have hmapped : Mapped s₁.memory m.addr m.size := hmemory ▸ hready.2
      have hsame (k : Place Reg) (hk : k ∈ (Operand.mem m.addr m.size).places T) :
          T.peek s₁ k = T.peek s k := by
        obtain ⟨a, rfl, -⟩ := mem_places_mem.1 hk
        exact congrArg (Memory.peek · a) hmemory
      have hbv (ρ : Input) : (Operand.mem m.addr m.size).bv T (T.peek s₁) ρ =
          (Operand.mem m.addr m.size).bv T (T.peek s) ρ := by
        refine congrArg _ (congrArg _ (List.map_congr_left fun k hk => ?_))
        rw [Process.byteValue, Process.byteValue, hsame k hk]
      have h := getExprFromMem_bitTest (σ := σ) hb h₁.wellFormed (hv.of_kept h₁.none_or_eq) hP hn
        hmapped (T.getRegValue src) kind
      simp only [hbv] at h
      refine h.mono fun _ s' _ h' => h'.imp_left (And.imp_left fun hnot k hk hsym => ?_)
      refine hnot k hk ?_
      rwa [Symbolic, hsame k hk]

end Handlers

end Process

end Qsym
