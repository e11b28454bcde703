import Qsym.Instrument.VexForm

/-!
# Qsym.Instrument.PackForm

The **pack instructions** and **PMADDWD**, with two operands and with three. What they should
do is said with integers: a pack instruction clamps the signed elements of both sources to the
range of half the bits (`packed`), and PMADDWD adds the products of neighbouring signed words
(`multiplyAdd`). The handlers do so for the operands for which the lanes of `Vex` agree with
the machine (`instrumentPack_clamps_iff`, `instrumentPmaddwd_adds_iff`).
-/

namespace X86

open Qsym Bits VexOp

variable {n m w : Nat}

/-- `x` clamped to the range of `w` bits with or without a sign. -/
def clamp (sign : Bool) (w : Nat) (x : Int) : Int :=
  if sign then max (-2 ^ (w - 1)) (min (2 ^ (w - 1) - 1) x) else max 0 (min (2 ^ w - 1) x)

/-- The destination of a pack instruction. -/
def packed (sign : Bool) (w : Nat) (a b : BitVec n) : BitVec n :=
  ofLanes n fun i => BitVec.ofInt w (clamp sign w (packElement w a b i).toInt)

/-- The destination of PMADDWD. -/
def multiplyAdd (a b : BitVec n) : BitVec n :=
  let product (i : Nat) : Int := (lane 16 a i).toInt * (lane 16 b i).toInt
  ofLanes n fun i => BitVec.ofInt 32 (product (2 * i) + product (2 * i + 1))

/-- What saturation makes of a number that is compared as an integer. -/
theorem saturated_eq_ofInt {lo hi : BitVec m} {loDst hiDst : BitVec w} (hm : w ≤ m)
    (hlo : loDst = BitVec.ofInt w lo.toInt) (hhi : hiDst = BitVec.ofInt w hi.toInt)
    (hle : lo.toInt ≤ hi.toInt) (x : BitVec m) :
    saturated .slt .sgt lo hi loDst hiDst x =
      BitVec.ofInt w (max lo.toInt (min hi.toInt x.toInt)) := by
  have hlow : x.extractLsb' 0 w = BitVec.ofInt w x.toInt := by
    rw [← BitVec.setWidth_eq_extractLsb' hm, ← BitVec.signExtend_eq_setWidth_of_le x hm]
    rfl
  have hslt : CompareKind.slt.holds x lo = decide (x.toInt < lo.toInt) := rfl
  have hsgt : CompareKind.sgt.holds x hi = decide (hi.toInt < x.toInt) := rfl
  simp only [saturated, hslt, hsgt, decide_eq_true_eq, hlo, hhi, hlow]
  split
  · congr 1
    omega
  · split
    · congr 1
      omega
    · congr 1
      omega

theorem narrowed_eq_clamp (hw : 0 < w) (sign : Bool) (x : BitVec (w * 2)) :
    narrowed sign w x = BitVec.ofInt w (clamp sign w x.toInt) := by
  have hwide : w ≤ w * 2 := by omega
  cases sign with
  | true =>
      have hmin : ((BitVec.intMin w).signExtend (w * 2)).toInt = -2 ^ (w - 1) := by
        rw [BitVec.toInt_signExtend_of_le hwide, BitVec.toInt_intMin_of_pos hw]
      have hmax : ((BitVec.intMax w).signExtend (w * 2)).toInt = 2 ^ (w - 1) - 1 := by
        rw [BitVec.toInt_signExtend_of_le hwide, BitVec.toInt_intMax]
      rw [clamp, if_pos rfl, ← hmin, ← hmax]
      refine saturated_eq_ofInt hwide ?_ ?_ ?_ x
      · rw [BitVec.toInt_signExtend_of_le hwide, BitVec.ofInt_toInt]
      · rw [BitVec.toInt_signExtend_of_le hwide, BitVec.ofInt_toInt]
      · rw [hmin, hmax]
        have hpos : (0 : Int) < 2 ^ (w - 1) := by positivity
        omega
  | false =>
      have hzero : (0 : BitVec (w * 2)).toInt = 0 := BitVec.toInt_zero
      have hones : ((2 ^ w - 1 : Nat) : Int) = 2 ^ w - 1 := by
        rw [Nat.cast_sub Nat.one_le_two_pow]
        norm_cast
      have hmax : ((BitVec.allOnes w).setWidth (w * 2)).toInt = 2 ^ w - 1 := by
        have hsquare : 2 ^ (w * 2) = 2 ^ w * 2 ^ w := by rw [Nat.mul_two, Nat.pow_add]
        have htwo : 2 ≤ 2 ^ w := Nat.pow_le_pow_right Nat.two_pos hw
        have hle := Nat.mul_le_mul_right (2 ^ w) htwo
        have hnat : ((BitVec.allOnes w).setWidth (w * 2)).toNat = 2 ^ w - 1 := by
          rw [BitVec.toNat_setWidth, BitVec.toNat_allOnes, Nat.mod_eq_of_lt (by omega)]
        rw [BitVec.toInt_eq_toNat_of_lt (by omega), hnat, hones]
      have hpos : (0 : Int) < 2 ^ w := by positivity
      have hall : BitVec.allOnes w = BitVec.ofInt w (2 ^ w - 1) := by
        apply BitVec.eq_of_toNat_eq
        rw [← hones, BitVec.ofInt_natCast, BitVec.toNat_ofNat, BitVec.toNat_allOnes,
          Nat.mod_eq_of_lt (Nat.sub_lt (Nat.two_pow_pos w) Nat.one_pos)]
      rw [clamp, if_neg Bool.false_ne_true, ← hmax]
      have h := saturated_eq_ofInt hwide (congrArg _ hzero.symm) (hmax ▸ hall)
        (by rw [hzero, hmax]; omega) x
      rw [hzero] at h
      exact h

/-- In 128 bits the elements are those of the machine, and in 256 two quarters are exchanged.
Elements that are clamped without a sign must not be negative. -/
def PackAgrees (sign : Bool) (w : Nat) (a b : BitVec n) : Prop :=
  (sign = false → ∀ i < n / (w * 2),
    (lane (w * 2) a i).msb = false ∧ (lane (w * 2) b i).msb = false) ∧ PacksAlike sign w a b

theorem packed_iff (hn : n = 128 ∨ n = 256) (hw : w = 8 ∨ w = 16) (hdvd : w ∣ n) (sign : Bool)
    (a b : BitVec n) :
    ofLanes n (fun i => saturatedTo sign w (lane (w * 2) (b ++ a) i)) = packed sign w a b ↔
      PackAgrees sign w a b := by
  have hpos : 0 < w := by omega
  have hlanes : ofLanes n (fun i => saturatedTo sign w (lane (w * 2) (b ++ a) i)) =
      packed sign w a b ↔ ∀ i < n / w, saturatedTo sign w (lane (w * 2) (b ++ a) i) =
        narrowed sign w (packElement w a b i) := by
    refine (ofLanes_inj hpos hdvd).trans (forall₂_congr fun i _ => ?_)
    rw [narrowed_eq_clamp hpos]
  rw [hlanes, PackAgrees]
  cases sign with
  | true => rw [packss_iff hn hw, and_iff_right nofun]
  | false => rw [packus_iff hn hw, imp_iff_right rfl]

/-- PMADDWD of the machine, with integers. -/
theorem machine_pmaddwd (a b : BitVec n) : machine .vpmaddwd a b = multiplyAdd a b := by
  have hproduct (i : Nat) : signedProduct a b i =
      BitVec.ofInt 32 ((lane 16 a i).toInt * (lane 16 b i).toInt) := by
    rw [BitVec.ofInt_mul]
    rfl
  refine congrArg (ofLanes n) (funext fun i => ?_)
  rw [hproduct, hproduct, BitVec.ofInt_add]

end X86

namespace Qsym

open Procedure X86 Bits
open SymbolicExprBuilder (chain)
open VexOp (signTerms pmaddwd_iff)

/-- The operands: the first source is the destination, or a register of its own. -/
inductive PackForm (Reg : Type)
  | regReg (dst src : Reg)
  | regMem (dst : Reg) (m : MemArg Reg)
  | regRegReg (dst src1 src2 : Reg)
  | regRegMem (dst src1 : Reg) (m : MemArg Reg)

namespace PackForm

variable {Reg : Type} [DecidableEq Reg] (T : Process Reg)

/-- The handlers of the pack instructions. -/
def pack (width : Nat) (sign : Bool) : PackForm Reg → Handler Reg Unit
  | regReg dst src => T.instrumentPackRegReg dst src width sign
  | regMem dst m => T.instrumentPackRegMem dst m width sign
  | regRegReg dst src1 src2 => T.instrumentVpackRegRegReg dst src1 src2 width sign
  | regRegMem dst src1 m => T.instrumentVpackRegRegMem dst src1 m width sign

/-- The handlers of PMADDWD. -/
def pmaddwd : PackForm Reg → Handler Reg Unit
  | regReg dst src => T.instrumentPmaddwdRegReg dst src
  | regMem dst m => T.instrumentPmaddwdRegMem dst m
  | regRegReg dst src1 src2 => T.instrumentVpmaddwdRegRegReg dst src1 src2
  | regRegMem dst src1 m => T.instrumentVpmaddwdRegRegMem dst src1 m

def dst : PackForm Reg → Reg
  | regReg dst .. | regMem dst .. | regRegReg dst .. | regRegMem dst .. => dst

/-- The two sources. -/
def sources : PackForm Reg → VectorLogicForm Reg
  | regReg dst src => .regReg dst src
  | regMem dst m => .regMem dst m
  | regRegReg _ src1 src2 => .regReg src1 src2
  | regRegMem _ src1 m => .regMem src1 m

/-- The operands have one size. -/
def Sized (form : PackForm Reg) : Prop :=
  form.sources.dst.size T = T.pin.regSize form.dst ∧ form.sources.src.size T =
    T.pin.regSize form.dst

section

variable (v : ShadowMap Reg) (form : PackForm Reg) (ρ : Input)

def src1Bv : BitVec ((Operand.reg form.dst).size T * 8) :=
  (form.sources.dst.bv T v ρ).setWidth _

def src2Bv : BitVec ((Operand.reg form.dst).size T * 8) :=
  (form.sources.src.bv T v ρ).setWidth _

end

/-- Both forms of a handler: nothing is done, or the destination is let go of, if neither source
depends on the input. -/
def computes (form : PackForm Reg) (result : Expr × Expr → Build Expr) : Handler Reg Unit :=
  match form with
  | regReg .. | regMem .. => T.legacy (form.sources.operands T) form.dst result
  | regRegReg .. | regRegMem .. => T.vex (form.sources.operands T) form.dst result

variable {T} (form : PackForm Reg)

theorem pack_eq (width : Nat) (sign : Bool) :
    form.pack T width sign = form.computes T (T.doPack form.dst width sign) := by
  cases form <;> rfl

theorem pmaddwd_eq : form.pmaddwd T = form.computes T (T.doPmaddwd form.dst) := by
  cases form <;> rfl

end PackForm

namespace Process

open Handler Stateful

variable {Reg : Type} [DecidableEq Reg] {T : Process Reg} {σ : Session} {s : Shadow}
variable {form : PackForm Reg}

section Handlers

variable (hP : T.pin.Documented) (hb : T.builder = chain) (hs : s.WellFormed)
  (hv : T.Consistent σ.input (T.peek s))

omit [DecidableEq Reg] in
/-- Neither source depends on the input, and the destination has no expression, or the
destination shows `u`. -/
def Lands (T : Process Reg) (form : PackForm Reg) (v v' : ShadowMap Reg)
    (u : Input → BitVec ((Operand.reg form.dst).size T * 8)) : Prop :=
  (¬ form.sources.Depends T v ∧ ∀ k ∈ (Operand.reg form.dst).places T, v' k = none) ∨
    form.sources.Depends T v ∧ ∀ ρ, T.Shows v' (.reg form.dst) ρ (u ρ)

include hP in
theorem clear_empties {dst : Reg} (hdst : T.Tracked dst) :
    Achieves (body σ) exactly (T.clearExprFromReg dst) s
      fun _ s' _ => ∀ k ∈ (Operand.reg dst).places T, T.peek s' k = none := by
  refine ((clearExprFromReg_returns hdst).achieves (clearExprFromReg_cleared hP dst)).mono ?_
  rintro _ s' _ ⟨_, _, hcleared, _⟩ k hk
  refine hcleared.empty k ?_
  rw [Operand.mem_dropped_iff hP, Operand.written_eq]
  exact List.mem_append_left _ hk

include hv in
/-- Sources that do not depend on the input have the value of the process. -/
theorem sources_constant (form : PackForm Reg) (hdep : ¬ form.sources.Depends T (T.peek s))
    (ρ : Input) :
    form.src1Bv T (T.peek s) ρ = form.src1Bv T (T.peek s) σ.input ∧
      form.src2Bv T (T.peek s) ρ = form.src2Bv T (T.peek s) σ.input := by
  have hconst (o : Operand Reg) (ho : o ∈ [form.sources.dst, form.sources.src]) :
      o.bv T (T.peek s) ρ = o.bv T (T.peek s) σ.input := by
    have hnot (k : Place Reg) (hk : k ∈ o.places T) : ¬ Symbolic (T.peek s) k :=
      fun hsym => hdep ⟨o, ho, k, hk, hsym⟩
    rw [hv.bv hnot ρ, hv.bv hnot σ.input]
  rw [PackForm.src1Bv, PackForm.src1Bv, PackForm.src2Bv, PackForm.src2Bv,
    hconst form.sources.dst (by simp), hconst form.sources.src (by simp)]
  exact ⟨rfl, rfl⟩

omit [DecidableEq Reg] in
/-- The destination has the value of the machine exactly where the handler computes it, if a
source depends on the input. -/
theorem Lands.delivers_iff {input : Input} {v v' : ShadowMap Reg}
    {u u' : Input → BitVec ((Operand.reg form.dst).size T * 8)} (h : Lands T form v v' u)
    (hconst : ¬ form.sources.Depends T v → ∀ ρ, u' ρ = u' input) (ρ : Input) :
    Delivers input T v' (.reg form.dst) u' ρ ↔ (form.sources.Depends T v → u ρ = u' ρ) := by
  rcases h with ⟨hdep, hempty⟩ | ⟨hdep, hshows⟩
  · rw [delivers_iff_of_empty hempty]
    exact iff_of_true (hconst hdep ρ) fun h => absurd h hdep
  · rw [(hshows ρ).delivers_iff, imp_iff_right hdep]

include hP hb hs hv in
/-- What both forms of a handler achieve. -/
theorem computes_achieves (hn : T.pin.regSize form.dst ∈ [8, 16, 32]) (hform : form.Sized T)
    (hready : form.sources.Ready T) (hdst : T.Tracked form.dst) {result : Expr × Expr → Build Expr}
    {u : Input → BitVec ((Operand.reg form.dst).size T * 8)}
    (hres : ∀ x : Expr × Expr,
      Expresses (T.pin.regSize form.dst * 8) (form.src1Bv T (T.peek s)) x.1 →
      Expresses (T.pin.regSize form.dst * 8) (form.src2Bv T (T.peek s)) x.2 →
        Builds σ exactly (result x) (Expresses (T.pin.regSize form.dst * 8) u)) :
    Achieves (body σ) exactly (form.computes T result) s fun _ s' _ =>
      Lands T form (T.peek s) (T.peek s') u := by
  have hsize : 1 < T.pin.regSize form.dst ∧ T.pin.regSize form.dst ≤ 2 ^ 64 :=
    (by decide : ∀ n ∈ [8, 16, 32], 1 < n ∧ n ≤ 2 ^ 64) _ hn
  have hfetch := vexPair_fetches (σ := σ) hP hb hs hv form.sources hsize hform.1 hform.2
  have hread : Returns (body σ) exactly (form.sources.operands T) s :=
    vectorLogic_returns hP hb hs hready (by rw [hform.2]; omega)
  have hnot {s₁ : Shadow}
      (hidle : T.Idle (T.peek s) (T.peek s₁) [form.sources.dst, form.sources.src]) :
      ¬ form.sources.Depends T (T.peek s) := by
    rintro ⟨o, ho, k, hk, hsym⟩
    exact hidle.not_symbolic ho hk hsym
  have hcompute (s₁ : Shadow) (x : Expr × Expr) (_ : T.Aged s s₁)
      (hx : (Expresses (T.pin.regSize form.dst * 8) (form.src1Bv T (T.peek s)) x.1 ∧
        Expresses (T.pin.regSize form.dst * 8) (form.src2Bv T (T.peek s)) x.2) ∧
          form.sources.Depends T (T.peek s)) :
      Achieves (body σ) exactly (do let res ← result x; T.setExprToReg form.dst (some res)) s₁
        fun _ s' _ => Lands T form (T.peek s) (T.peek s') u := by
    refine Achieves.lift_bind (hres x hx.1.1 hx.1.2) fun res hres => ?_
    refine (set_achieves (o := .reg form.dst) hP hb hdst hsize.2 hres).mono
      fun _ s' _ ⟨_, hputs⟩ => ?_
    exact .inr ⟨hx.2, hputs.shows⟩
  cases form with
  | regReg | regMem =>
      refine computing_achieves hfetch hread (fun s₁ _ hidle => ?_) hcompute
      exact .ret (.inl ⟨hnot hidle, hidle.empty _ List.mem_cons_self⟩)
  | regRegReg | regRegMem =>
      refine computing_achieves hfetch hread (fun s₁ _ hidle => ?_) hcompute
      exact (clear_empties hP hdst).mono fun _ s' _ hempty => .inl ⟨hnot hidle, hempty⟩

include hP hb hs hv in
/-- **Pack with saturation.** The destination holds the clamped elements of both sources, those
of the first source in the low half of every 128 bits, exactly if no element is negative that
is clamped without a sign, and, in 256 bits, the upper half of the first source is clamped to
the same as the lower half of the second; or neither source depends on the input. -/
theorem instrumentPack_clamps_iff (hn : T.pin.regSize form.dst ∈ [16, 32]) (hform : form.Sized T)
    (hready : form.sources.Ready T) (hdst : T.Tracked form.dst)
    {width : Nat} (hwidth : width ∈ [1, 2]) (sign : Bool) :
    Achieves (body σ) exactly (form.pack T width sign) s fun _ s' _ => ∀ ρ,
      Delivers σ.input T (T.peek s') (.reg form.dst) (fun ρ =>
          packed sign (width * 8) (form.src1Bv T (T.peek s) ρ) (form.src2Bv T (T.peek s) ρ)) ρ ↔
        (form.sources.Depends T (T.peek s) →
          PackAgrees sign (width * 8) (form.src1Bv T (T.peek s) ρ)
            (form.src2Bv T (T.peek s) ρ)) := by
  have hbits : T.pin.regSize form.dst * 8 = 128 ∨ T.pin.regSize form.dst * 8 = 256 :=
    (by decide : ∀ n ∈ [16, 32], n * 8 = 128 ∨ n * 8 = 256) _ hn
  have hw : 0 < width ∧ width * 8 ∣ T.pin.regSize form.dst * 8 ∧ 0 < T.pin.regSize form.dst * 8 :=
    (by decide : ∀ n ∈ [16, 32], ∀ w ∈ [1, 2], 0 < w ∧ w * 8 ∣ n * 8 ∧ 0 < n * 8) _ hn _ hwidth
  have hlane : width * 8 = 8 ∨ width * 8 = 16 :=
    (by decide : ∀ w ∈ [1, 2], w * 8 = 8 ∨ w * 8 = 16) _ hwidth
  have hmmx : T.pin.regSize form.dst ∈ [8, 16, 32] := List.mem_cons_of_mem 8 hn
  rw [form.pack_eq]
  refine (computes_achieves (u := fun ρ => ofLanes _ fun i => saturatedTo sign (width * 8)
    (lane (width * 8 * 2) (form.src2Bv T (T.peek s) ρ ++ form.src1Bv T (T.peek s) ρ) i))
    hP hb hs hv hmmx hform hready hdst fun x ha hx => ?_).mono fun _ s' _ hlands ρ => ?_
  · rw [doPack, hb]
    exact packExpr_expresses hw.1 hw.2.1 hw.2.2 ha hx sign
  · have hconst := sources_constant hv form
    rw [hlands.delivers_iff (fun hdep ρ => by rw [(hconst hdep ρ).1, (hconst hdep ρ).2]) ρ]
    exact imp_congr_right fun _ => packed_iff hbits hlane hw.2.1 sign _ _

include hP hb hs hv in
/-- **Multiply-add.** The destination holds the sums of the signed products exactly if what the
signs of the words add to the products of every sum is a multiple of `2 ^ 32`, or neither
source depends on the input. -/
theorem instrumentPmaddwd_adds_iff (hn : T.pin.regSize form.dst ∈ [8, 16, 32])
    (hform : form.Sized T) (hready : form.sources.Ready T) (hdst : T.Tracked form.dst) :
    Achieves (body σ) exactly (form.pmaddwd T) s fun _ s' _ => ∀ ρ,
      Delivers σ.input T (T.peek s') (.reg form.dst) (fun ρ =>
          multiplyAdd (form.src1Bv T (T.peek s) ρ) (form.src2Bv T (T.peek s) ρ)) ρ ↔
        (form.sources.Depends T (T.peek s) →
          ∀ i < T.pin.regSize form.dst * 8 / 32,
            (signTerms (form.src1Bv T (T.peek s) ρ) (form.src2Bv T (T.peek s) ρ) (2 * i) +
              signTerms (form.src1Bv T (T.peek s) ρ) (form.src2Bv T (T.peek s) ρ) (2 * i + 1)) %
                2 ^ 16 = 0) := by
  have hsize : 4 ∣ T.pin.regSize form.dst ∧ 0 < T.pin.regSize form.dst ∧
      32 ∣ T.pin.regSize form.dst * 8 :=
    (by decide : ∀ n ∈ [8, 16, 32], 4 ∣ n ∧ 0 < n ∧ 32 ∣ n * 8) _ hn
  rw [form.pmaddwd_eq]
  refine (computes_achieves (u := fun ρ => ofLanes _ fun i =>
    wordProductBv (form.src1Bv T (T.peek s) ρ) (form.src2Bv T (T.peek s) ρ) (2 * i) +
      wordProductBv (form.src1Bv T (T.peek s) ρ) (form.src2Bv T (T.peek s) ρ) (2 * i + 1))
    hP hb hs hv hn hform hready hdst fun x ha hx => ?_).mono fun _ s' _ hlands ρ => ?_
  · rw [doPmaddwd, hb]
    exact pmaddwdExpr_expresses hsize.1 hsize.2.1 ha hx
  · have hconst := sources_constant hv form
    rw [hlands.delivers_iff (fun hdep ρ => by rw [(hconst hdep ρ).1, (hconst hdep ρ).2]) ρ]
    refine imp_congr_right fun _ => ?_
    rw [← machine_pmaddwd]
    exact (ofLanes_inj (by decide) hsize.2.2).trans (forall₂_congr fun i _ => pmaddwd_iff)

end Handlers

open X86Reg (process shadow)

/-- `PACK* XMM0, XMM1` -/
def packXmm : PackForm X86Reg :=
  .regReg .xmm0 .xmm1

/-- `PACKSSWB XMM0, XMM1`, where a byte of `XMM1` is read from the input. -/
theorem instrumentPack_packsswb : ∃ s' l w',
    Runs (body quietSession) (process.instrumentPackRegReg .xmm0 .xmm1 1 true (shadow [xmm1Cell]))
      (freshWorld 1) ((), s', l) w' ∧
      ∀ ρ, Delivers quietSession.input process (process.peek s') (.reg .xmm0) (fun ρ =>
        packed true 8 (packXmm.src1Bv process (process.peek (shadow [xmm1Cell])) ρ)
          (packXmm.src2Bv process (process.peek (shadow [xmm1Cell])) ρ)) ρ := by
  have hsized : packXmm.Sized process := ⟨rfl, rfl⟩
  have hready : packXmm.sources.Ready process :=
    ⟨X86Reg.tracked (by decide), X86Reg.tracked (by decide)⟩
  have h := instrumentPack_clamps_iff (σ := quietSession) X86Reg.registers_documented rfl
    (X86Reg.shadow_init_wellFormed [xmm1Cell]) (X86Reg.shadow_consistent [xmm1Cell]) (by decide)
    hsized hready hready.1 (List.mem_cons_self : 1 ∈ [1, 2]) true
  obtain ⟨_, s', l, w', hr, hiff⟩ := exists_run (n := 40) (w := freshWorld 1) h (by decide +kernel)
  exact ⟨s', l, w', hr, fun ρ => (hiff ρ).mpr fun _ => ⟨nofun, nofun⟩⟩

/-- `PACKUSWB XMM0, XMM1` of a word of `XMM1` that is -32768 gives the byte 255. -/
theorem instrumentPack_packuswb_not : ∃ s' l w',
    Runs (body quietSession)
      (process.instrumentPackRegReg .xmm0 .xmm1 1 false (shadow [xmm1Cell + 1]))
      (freshWorld 1) ((), s', l) w' ∧
      ¬ Delivers quietSession.input process (process.peek s') (.reg .xmm0) (fun ρ =>
        packed false 8 (packXmm.src1Bv process (process.peek (shadow [xmm1Cell + 1])) ρ)
          (packXmm.src2Bv process (process.peek (shadow [xmm1Cell + 1])) ρ)) fun _ => 128 := by
  have hp : ((process.instrumentPackRegReg .xmm0 .xmm1 1 false (shadow [xmm1Cell + 1])).run
      (exec (body quietSession) 40) (freshWorld 1)).map (fun x =>
        (process.peek x.1.2.1 (.reg .ymm0 8)).map fun e => e.value fun _ => 128) =
          some (some 255) := by
    decide +kernel
  obtain ⟨⟨⟨_, s', l⟩, w'⟩, hrun, hbyte⟩ := Option.map_eq_some_iff.1 hp
  refine ⟨s', l, w', ⟨40, hrun⟩, fun hright => ?_⟩
  obtain ⟨e, he, hval⟩ := Option.map_eq_some_iff.1 hbyte
  have he : process.peek s' ((Operand.reg .xmm0).place process 8) = some e := he
  have hzero : Bytes.byte (packed false 8
      (packXmm.src1Bv process (process.peek (shadow [xmm1Cell + 1])) fun _ => 128)
      (packXmm.src2Bv process (process.peek (shadow [xmm1Cell + 1])) fun _ => 128)).toNat 8 =
        0 := by
    decide +kernel
  have h := hright 8 (by decide)
  rw [he] at h
  exact absurd ((hval.symm.trans h).trans hzero) (by decide)

/-- `PMADDWD XMM1, XMM1` -/
def pmaddwdXmm : PackForm X86Reg :=
  .regReg .xmm1 .xmm1

/-- `PMADDWD XMM1, XMM1`, where the low byte is read from the input: no word is negative. -/
theorem instrumentPmaddwd_low : ∃ s' l w',
    Runs (body quietSession) (process.instrumentPmaddwdRegReg .xmm1 .xmm1 (shadow [xmm1Cell]))
      (freshWorld 1) ((), s', l) w' ∧
      Delivers quietSession.input process (process.peek s') (.reg .xmm1) (fun ρ =>
        multiplyAdd (pmaddwdXmm.src1Bv process (process.peek (shadow [xmm1Cell])) ρ)
          (pmaddwdXmm.src2Bv process (process.peek (shadow [xmm1Cell])) ρ)) fun _ => 200 := by
  have hsized : pmaddwdXmm.Sized process := ⟨rfl, rfl⟩
  have hready : pmaddwdXmm.sources.Ready process :=
    ⟨X86Reg.tracked (by decide), X86Reg.tracked (by decide)⟩
  have h := instrumentPmaddwd_adds_iff (σ := quietSession) X86Reg.registers_documented rfl
    (X86Reg.shadow_init_wellFormed [xmm1Cell]) (X86Reg.shadow_consistent [xmm1Cell]) (by decide)
    hsized hready hready.1
  obtain ⟨_, s', l, w', hr, hiff⟩ := exists_run (n := 40) (w := freshWorld 1) h (by decide +kernel)
  exact ⟨s', l, w', hr, (hiff _).mpr fun _ => by decide +kernel⟩

/-- `PMADDWD XMM1, XMM1` of the word -32640: the square has a sign too few. -/
theorem instrumentPmaddwd_negative_not : ∃ s' l w',
    Runs (body quietSession)
      (process.instrumentPmaddwdRegReg .xmm1 .xmm1 (shadow [xmm1Cell, xmm1Cell + 1]))
      (freshWorld 1) ((), s', l) w' ∧
      ¬ Delivers quietSession.input process (process.peek s') (.reg .xmm1) (fun ρ =>
        multiplyAdd
          (pmaddwdXmm.src1Bv process (process.peek (shadow [xmm1Cell, xmm1Cell + 1])) ρ)
          (pmaddwdXmm.src2Bv process (process.peek (shadow [xmm1Cell, xmm1Cell + 1])) ρ))
        fun _ => 128 := by
  have hp : ((process.instrumentPmaddwdRegReg .xmm1 .xmm1 (shadow [xmm1Cell, xmm1Cell + 1])).run
      (exec (body quietSession) 40) (freshWorld 1)).map (fun x =>
        (process.peek x.1.2.1 (.reg .ymm1 3)).map fun e => e.value fun _ => 128) =
          some (some 64) := by
    decide +kernel
  obtain ⟨⟨⟨_, s', l⟩, w'⟩, hrun, hbyte⟩ := Option.map_eq_some_iff.1 hp
  refine ⟨s', l, w', ⟨40, hrun⟩, fun hright => ?_⟩
  obtain ⟨e, he, hval⟩ := Option.map_eq_some_iff.1 hbyte
  have he : process.peek s' ((Operand.reg .xmm1).place process 3) = some e := he
  have hsigned : Bytes.byte (multiplyAdd
      (pmaddwdXmm.src1Bv process (process.peek (shadow [xmm1Cell, xmm1Cell + 1])) fun _ => 128)
      (pmaddwdXmm.src2Bv process (process.peek (shadow [xmm1Cell, xmm1Cell + 1]))
        fun _ => 128)).toNat 3 = 63 := by
    decide +kernel
  have h := hright 3 (by decide)
  rw [he] at h
  exact absurd ((hval.symm.trans h).trans hsigned) (by decide)

end Process

end Qsym
