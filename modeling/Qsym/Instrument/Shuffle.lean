import Qsym.Instrument.Packed

/-!
# Qsym.Instrument.Shuffle

The **shuffles**. PSHUFB takes the control from bytes that may depend on the input, the others
from an immediate. The handlers shift the whole source by the position of the element, and the
two-operand form of PSHUFB concretises the control before.
-/

namespace X86

open Qsym Bits

variable {n : Nat}

/-- The two bits of an immediate that select element `k`. -/
def control (imm k : Nat) : Nat :=
  imm / 4 ^ k % 4

/-- The destination of PSHUFB: a byte of the same 128 bits, or zero. -/
def shuffleBytes (a c : BitVec n) : BitVec n :=
  ofLanes n fun i =>
    if (lane 8 c i).msb then 0 else lane 8 a (i / 16 * 16 + (lane 8 c i).toNat % 16)

/-- The destination of PSHUFD. -/
def shuffleDwords (imm : Nat) (a : BitVec n) : BitVec n :=
  ofLanes n fun i => lane 32 a (i / 4 * 4 + control imm (i % 4))

/-- The destination of PSHUFHW and PSHUFLW: of every 128 bits one half is kept. -/
def shuffleWords (high : Bool) (imm : Nat) (a : BitVec n) : BitVec n :=
  ofLanes n fun i =>
    if decide (4 ≤ i % 8) = high then lane 16 a (i / 4 * 4 + control imm (i % 4)) else lane 16 a i

theorem select_eq_control (imm k : Nat) : imm >>> (2 * k) &&& 3 = control imm k := by
  rw [Nat.shiftRight_eq_div_pow, Nat.pow_mul]
  exact Nat.and_two_pow_sub_one_eq_mod _ 2

theorem control_le (imm k : Nat) : control imm k ≤ 3 :=
  Nat.le_of_lt_succ (Nat.mod_lt _ (by decide))

/-- What the handler takes for a byte is what the machine takes. -/
theorem ofLanes_shuffled (hn : n = 128 ∨ n = 256) (a c : BitVec n) :
    ofLanes n (shuffled a c) = shuffleBytes a c := by
  refine ofLanes_congr fun i hi => ?_
  have hand : (lane 8 c i &&& 15).toNat = (lane 8 c i).toNat % 16 := by
    rw [BitVec.toNat_and]
    exact Nat.and_two_pow_sub_one_eq_mod _ 4
  have hlane : i / 16 * 16 = if 16 ≤ i then 16 else 0 := by
    rcases hn with rfl | rfl <;> split <;> omega
  rw [shuffled, hlane, hand, Nat.add_comm]

section Words

variable {high : Bool} {imm : Nat} {a : BitVec n} {i j k : Nat}

theorem lane_shuffleWords (hi : i * 16 + 16 ≤ n) : lane 16 (shuffleWords high imm a) i =
    if decide (4 ≤ i % 8) = high then lane 16 a (i / 4 * 4 + control imm (i % 4))
      else lane 16 a i :=
  lane_ofLanes hi (by decide)

/-- A word of the half that is shuffled. -/
theorem shuffleWords_word (hk : k < 4) (hn : j * 128 + 128 ≤ n) :
    (shuffleWords high imm a).extractLsb' (j * 128 + high.toNat * 64 + k * 16) 16 =
      a.extractLsb' (control imm k * 16 + j * 128 + high.toNat * 64) 16 := by
  obtain ⟨i, hi⟩ : ∃ i, i = j * 8 + high.toNat * 4 + k := ⟨_, rfl⟩
  have hhigh : high.toNat ≤ 1 := Bool.toNat_le high
  have hpos : j * 128 + high.toNat * 64 + k * 16 = i * 16 := by omega
  have hword : lane 16 (shuffleWords high imm a) i = _ := lane_shuffleWords (by omega)
  have hmod : i % 4 = k ∧ i / 4 * 4 = j * 8 + high.toNat * 4 := by omega
  have hhalf : decide (4 ≤ i % 8) = high := by
    cases high
    · simp at hi ⊢
      omega
    · simp at hi ⊢
      omega
  rw [hpos]
  refine hword.trans ?_
  have hctl : (j * 8 + high.toNat * 4 + control imm k) * 16 =
      control imm k * 16 + j * 128 + high.toNat * 64 := by omega
  rw [if_pos hhalf, hmod.1, hmod.2, lane, hctl]

/-- The half that is kept. -/
theorem shuffleWords_half (hn : j * 128 + 128 ≤ n) :
    (shuffleWords high imm a).extractLsb' (j * 128 + (!high).toNat * 64) 64 =
      a.extractLsb' (j * 128 + (!high).toNat * 64) 64 := by
  have hhigh : (!high).toNat ≤ 1 := Bool.toNat_le _
  have hpos : j * 128 + (!high).toNat * 64 = (j * 8 + (!high).toNat * 4) * 16 := by omega
  rw [hpos]
  refine eq_of_lanes (w := 16) (by decide) (by decide) fun i hi => ?_
  rw [lane_extract _ _ (by omega), lane_extract _ _ (by omega), lane_shuffleWords (by omega)]
  refine if_neg fun hhalf => ?_
  cases high
  · simp at hhalf
    omega
  · simp at hhalf
    omega

end Words

end X86

namespace Qsym

open Procedure X86 Bits
open SymbolicExprBuilder (chain)

section Expressions

variable {σ : Session} {n : Nat} {src : Expr} {es : List Expr} {a : Input → BitVec n} {imm : Addr}

/-- What is shifted down and cut off. -/
theorem extract_shifted {p i w : Nat} (hp : p < 2 ^ n) (x : BitVec n) :
    (x >>> BitVec.ofNat n p).extractLsb' i w = x.extractLsb' (p + i) w :=
  extract_shift x (by rw [BitVec.toNat_ofNat, Nat.mod_eq_of_lt hp]) i w

theorem pshufExpr_expresses {a : Input → BitVec 128} (ha : Expresses 128 a src) :
    Builds σ exactly (chain.pshufExpr src imm 16 4)
      (Expresses 128 fun ρ => shuffleDwords imm.toNat (a ρ)) := by
  unfold ExprBuilder.pshufExpr
  refine Total.mono (lanes_expresses (f := fun i ρ => lane 32 (a ρ) (control imm.toNat i))
    (by decide : 0 < 4) rfl rfl fun i hi => ?_) fun e he => he.congr fun ρ => ?_
  · have hle := control_le imm.toNat (i * 1)
    have hcount : control imm.toNat (i * 1) * 4 * 8 + 16 / 128 * 128 =
        control imm.toNat i * 32 := by
      rw [Nat.mul_one]
      omega
    simp only [select_eq_control, ha.bits, hcount]
    rw [Nat.mul_one] at hle
    have hlt : control imm.toNat i * 32 < 2 ^ 128 := by omega
    refine Total.bind (Expresses.createConstant_builds _ (by decide)) fun count hcount => ?_
    refine Total.bind (ha.binary_builds (k := .lshr) nofun rfl hcount) fun x hx => ?_
    refine Total.mono (hx.extract_builds (i := 0) (w := 32) (by decide) (by decide)) fun e he => ?_
    exact he.congr fun ρ => extract_shifted hlt (a ρ)
  · refine ofLanes_congr fun i hi => ?_
    rw [Nat.div_eq_of_lt hi, Nat.mod_eq_of_lt hi, Nat.zero_mul, Nat.zero_add]

section Words

variable {high : Bool} {j k c : Nat}

theorem pshufwWords_tiles (ha : Expresses n a src) (hk : k + c ≤ 4) (hj : j * 128 + 128 ≤ n)
    (hn : n ≤ 256)
    (hes : Tiles (fun ρ => shuffleWords high imm.toNat (a ρ))
      (j * 128 + high.toNat * 64 + k * 16) es) :
    Builds σ exactly
      (chain.pshufwWords src imm n (j * 128) high ((List.range' k c).map (2 * ·)) es)
      (Tiles (fun ρ => shuffleWords high imm.toNat (a ρ))
        (j * 128 + high.toNat * 64 + (k + c) * 16)) := by
  induction c generalizing k es with
  | zero => exact Total.ret hes
  | succ c ih =>
      have hle := control_le imm.toNat k
      have hhigh : high.toNat ≤ 1 := Bool.toNat_le high
      have hpow : 2 ^ 128 ≤ 2 ^ n := Nat.pow_le_pow_right Nat.two_pos (by omega)
      rw [List.range'_succ, List.map_cons]
      unfold ExprBuilder.pshufwWords
      simp only [select_eq_control]
      have hlt : control imm.toNat k * 16 + j * 128 < 2 ^ n := by omega
      refine Total.bind (Expresses.createConstant_builds _ (by omega)) fun count hcount => ?_
      refine Total.bind (ha.binary_builds (k := .lshr) nofun rfl hcount) fun x hx => ?_
      refine Total.bind (hx.extract_builds (i := high.toNat * 64) (w := 16) (by decide) (by omega))
        fun e he => ?_
      have hnext : k + (c + 1) = k + 1 + c := by omega
      have hword : Expresses 16 (fun ρ => (shuffleWords high imm.toNat (a ρ)).extractLsb'
          (j * 128 + high.toNat * 64 + k * 16) 16) e := by
        refine he.congr fun ρ => (extract_shifted hlt (a ρ)).trans ?_
        rw [shuffleWords_word (by omega) hj]
      have htiles := Tiles.cons hes hword
      rw [hnext]
      refine ih (by omega) ?_
      rw [Nat.succ_mul, ← Nat.add_assoc]
      exact htiles

/-- The half that is kept is pushed. -/
theorem pushHalf_tiles {z : Input → BitVec n} {p : Nat} (ha : Expresses n a src) (hp : p + 64 ≤ n)
    (hz : ∀ ρ, (z ρ).extractLsb' p 64 = (a ρ).extractLsb' p 64) (hes : Tiles z p es) :
    Builds σ exactly (chain.pushHalf src p true es) (Tiles z (p + 64)) :=
  Total.bind (ha.extract_builds (by decide) hp) fun _ he =>
    .ret (hes.cons (he.congr fun ρ => (hz ρ).symm))

/-- The half and the words of a lane of 128 bits. -/
theorem pshufwLanes_tiles (ha : Expresses n a src) (hn : n ≤ 256) (hc : (j + c) * 128 ≤ n)
    (hes : Tiles (fun ρ => shuffleWords high imm.toNat (a ρ)) (j * 128) es) :
    Builds σ exactly (chain.pshufwLanes src imm n high (List.range' j c) es)
      (Tiles (fun ρ => shuffleWords high imm.toNat (a ρ)) ((j + c) * 128)) := by
  induction c generalizing j es with
  | zero => exact Total.ret hes
  | succ c ih =>
      have hj : j * 128 + 128 ≤ n := by omega
      have hbeg : j * 16 * 8 = j * 128 := by omega
      have hwords : [0, 2, 4, 6] = (List.range' 0 4).map (2 * ·) := rfl
      have hhalf (ρ : Input) : (shuffleWords high imm.toNat (a ρ)).extractLsb' _ 64 = _ :=
        shuffleWords_half hj
      have hnext : (j + (c + 1)) * 128 = (j + 1 + c) * 128 := by omega
      have hrest {es : List Expr}
          (hes : Tiles (fun ρ => shuffleWords high imm.toNat (a ρ)) (j * 128 + 64 + 64) es) :
          Builds σ exactly (chain.pshufwLanes src imm n high (List.range' (j + 1) c) es)
            (Tiles (fun ρ => shuffleWords high imm.toNat (a ρ)) ((j + (c + 1)) * 128)) := by
        rw [hnext]
        refine ih (by omega) ?_
        rw [Nat.succ_mul]
        exact hes
      rw [List.range'_succ]
      unfold ExprBuilder.pshufwLanes
      simp only [hwords, hbeg]
      cases high with
      | true =>
          refine Total.bind (pushHalf_tiles (p := j * 128) ha (by omega) hhalf hes) fun es hes => ?_
          refine Total.bind (pshufwWords_tiles (k := 0) (c := 4) ha (by decide) hj hn hes)
            fun es hes => ?_
          exact Total.bind (Total.ret hes) fun es hes => hrest hes
      | false =>
          refine Total.bind (Total.ret hes) fun es hes => ?_
          refine Total.bind (pshufwWords_tiles (k := 0) (c := 4) ha (by decide) hj hn hes)
            fun es hes => ?_
          exact Total.bind (pushHalf_tiles (p := j * 128 + 64) ha (by omega) hhalf hes)
            fun es hes => hrest hes

theorem pshufwExpr_expresses {size : Nat} {a : Input → BitVec (size * 8)}
    (hsize : size = 16 ∨ size = 32)
    (ha : Expresses (size * 8) a src) : Builds σ exactly (chain.pshufwExpr size src imm high)
      (Expresses (size * 8) fun ρ => shuffleWords high imm.toNat (a ρ)) := by
  have hlanes : size / 16 * 128 = size * 8 ∧ size * 8 ≤ 256 ∧ 0 < size * 8 := by omega
  unfold ExprBuilder.pshufwExpr
  rw [if_pos hsize, List.range_eq_range']
  refine Total.bind (pshufwLanes_tiles (j := 0) ha hlanes.2.1 (by omega) .nil) fun es hes => ?_
  refine createConcatAll_tiles hlanes.2.2 ?_ hes
  rw [Nat.zero_add]
  exact hlanes.1

end Words

end Expressions

/-- The shuffles. -/
inductive ShuffleIns (Reg : Type)
  | pshufb (form : PackForm Reg)
  | pshufd (imm : Addr) (pair : VectorLogicForm Reg)
  | pshufw (high : Bool) (imm : Addr) (pair : VectorLogicForm Reg)

namespace VectorLogicForm

variable {Reg : Type} [DecidableEq Reg] (T : Process Reg)

/-- What is done first with a control that must not depend on the input. -/
def concretize : VectorLogicForm Reg → Handler Reg Unit
  | regReg _ src => T.concretizeReg src
  | regMem _ m => T.concretizeMem m.addr m.size

/-- The source alone is read. -/
def source : VectorLogicForm Reg → Handler Reg (Option Expr)
  | regReg _ src => T.getExprFromReg src
  | regMem _ m => T.getExprFromMemSrc m

/-- The source can be read. -/
def SourceReady : VectorLogicForm Reg → Prop
  | regReg _ src => T.Tracked src
  | regMem _ m => T.Addressed m

end VectorLogicForm

namespace ShuffleIns

variable {Reg : Type} [DecidableEq Reg] (T : Process Reg)

def handler : ShuffleIns Reg → Handler Reg Unit
  | pshufb (.regReg dst src) => T.instrumentPshufbRegReg dst src
  | pshufb (.regMem dst m) => T.instrumentPshufbRegMem dst m
  | pshufb (.regRegReg dst src1 src2) => T.instrumentVpshufbRegRegReg dst src1 src2
  | pshufb (.regRegMem dst src1 m) => T.instrumentVpshufbRegRegMem dst src1 m
  | pshufd imm (.regReg dst src) => T.instrumentPshufRegRegImm dst src imm 4
  | pshufd imm (.regMem dst m) => T.instrumentPshufRegMemImm dst m imm 4
  | pshufw high imm (.regReg dst src) => T.instrumentPshufwRegRegImm dst src imm high
  | pshufw high imm (.regMem dst m) => T.instrumentPshufwRegMemImm dst m imm high

def dst : ShuffleIns Reg → Reg
  | pshufb form => form.dst
  | pshufd _ pair | pshufw _ _ pair => pair.packForm.dst

/-- What is concretised. -/
def fixed : ShuffleIns Reg → List (Operand Reg)
  | pshufb (.regReg _ src) => [.reg src]
  | pshufb (.regMem _ m) => [.mem m.addr m.size]
  | _ => []

/-- The operands have the size of the destination, 128 bits, and 256 too where there is one
shuffle in every lane. -/
def Handled : ShuffleIns Reg → Prop
  | pshufb form => T.pin.regSize form.dst ∈ [16, 32] ∧ form.Sized T
  | pshufd _ pair => T.pin.regSize pair.packForm.dst = 16 ∧
      pair.src.size T = T.pin.regSize pair.packForm.dst
  | pshufw _ _ pair => T.pin.regSize pair.packForm.dst ∈ [16, 32] ∧
      pair.src.size T = T.pin.regSize pair.packForm.dst

/-- The operands can be read. -/
def Ready : ShuffleIns Reg → Prop
  | pshufb form => form.sources.Ready T
  | pshufd _ pair | pshufw _ _ pair => pair.SourceReady T

/-- The destination of the machine. -/
def machine (v : ShadowMap Reg) (ins : ShuffleIns Reg) (ρ : Input) :
    BitVec ((Operand.reg ins.dst).size T * 8) :=
  match ins with
  | pshufb form => shuffleBytes (form.src1Bv T v ρ) (form.src2Bv T v ρ)
  | pshufd imm pair => shuffleDwords imm.toNat ((pair.src.bv T v ρ).setWidth _)
  | pshufw high imm pair => shuffleWords high imm.toNat ((pair.src.bv T v ρ).setWidth _)

/-- Of operands that stand for `a` and for the control `c` an expression of the full width of the
destination is built that stands for the shuffle. -/
def Computes (σ : Session) : ShuffleIns Reg → Prop
  | pshufb form => ∀ a c x, Expresses (T.pin.regSize form.dst * 8) a x.1 →
      Expresses (T.pin.regSize form.dst * 8) c x.2 →
        Builds σ exactly (T.doPshufb form.dst x)
          (Expresses (T.pin.regSize form.dst * 8) fun ρ => shuffleBytes (a ρ) (c ρ))
  | pshufd imm pair => ∀ a e, Expresses (T.pin.regSize pair.packForm.dst * 8) a e →
      Builds σ exactly (T.builder.pshufExpr e imm (pair.sizeTaken T) 4)
        (Expresses (T.pin.regSize pair.packForm.dst * 8) fun ρ => shuffleDwords imm.toNat (a ρ))
  | pshufw high imm pair => ∀ a e, Expresses (T.pin.regSize pair.packForm.dst * 8) a e →
      Builds σ exactly (T.doPshufw pair.packForm.dst imm high e)
        (Expresses (T.pin.regSize pair.packForm.dst * 8) fun ρ => shuffleWords high imm.toNat (a ρ))

end ShuffleIns

namespace Process

open Handler Stateful

variable {Reg : Type} [DecidableEq Reg] {T : Process Reg} {σ : Session} {s : Shadow}
variable {ins : ShuffleIns Reg} {form : PackForm Reg} {pair : VectorLogicForm Reg}

section Handlers

variable (hP : T.pin.Documented) (hb : T.builder = chain) (hs : s.WellFormed)
  (hv : T.Consistent σ.input (T.peek s))

omit [DecidableEq Reg] in
include hb in
theorem shuffle_computes (hins : ins.Handled T) : ins.Computes T σ := by
  have hsizes {n : Nat} (hn : n ∈ [16, 32]) : (n = 16 ∨ n = 32) ∧ (n * 8 = 128 ∨ n * 8 = 256) :=
    (by decide : ∀ n ∈ [16, 32], (n = 16 ∨ n = 32) ∧ (n * 8 = 128 ∨ n * 8 = 256)) _ hn
  cases ins with
  | pshufb form =>
      intro a c x ha hc
      rw [doPshufb, hb]
      refine (pshufbExpr_expresses (hsizes hins.1).1 ha hc).mono fun e he => he.congr fun ρ => ?_
      exact ofLanes_shuffled (hsizes hins.1).2 (a ρ) (c ρ)
  | pshufd imm pair =>
      obtain ⟨hdst, hsrc⟩ := hins
      rw [ShuffleIns.Computes, pair.sizeTaken_eq hsrc, hb]
      intro a e ha
      generalize T.pin.regSize pair.packForm.dst = n at hdst a ha
      subst hdst
      exact pshufExpr_expresses ha
  | pshufw high imm pair =>
      intro a e ha
      rw [doPshufw, hb]
      exact pshufwExpr_expresses (hsizes hins.1).1 ha

include hP hb hs in
theorem concretize_achieves (hready : pair.Ready T) :
    Achieves (body σ) exactly (pair.concretize T) s fun _ s₁ l =>
      T.Concretized s pair.src s₁ l := by
  cases pair with
  | regReg dst src =>
      exact (concretizeReg_returns hP hb hs hready.2).achieves
        (concretizeReg_concretized hP hb hs src)
  | regMem dst m =>
      exact (concretizeMem_returns hb hs m.addr m.size).achieves
        (concretizeMem_concretized hb hs m.addr m.size)

variable (pair) in
include hP hb hs hv in
/-- The control is concretised, which settles it, and with the rest the destination is computed. -/
theorem pshufb_delivers (hn : T.pin.regSize pair.packForm.dst ∈ [16, 32])
    (hpair : pair.packForm.Sized T) (hready : pair.Ready T) (hdst : T.Tracked pair.packForm.dst) :
    Achieves (body σ) exactly (do
      pair.concretize T
      pair.packForm.computes T (T.doPshufb pair.packForm.dst)) s fun _ s' l =>
        (∀ k ∈ pair.src.places T, Symbolic (T.peek s) k → T.Settled (T.peek s) l k) ∧
          ∀ ρ, Held T (T.peek s) pair.src ρ →
            Delivers σ.input T (T.peek s') (.reg pair.packForm.dst) (fun ρ =>
              shuffleBytes (pair.packForm.src1Bv T (T.peek s) ρ)
                (pair.packForm.src2Bv T (T.peek s) ρ)) ρ := by
  have hmem : T.pin.regSize pair.packForm.dst ∈ [8, 16, 32] := List.mem_cons_of_mem 8 hn
  have hsrc : pair.src.size T = T.pin.regSize pair.packForm.dst := by cases pair <;> exact hpair.2
  have hfour : pair.src.size T ≠ 4 := by
    rw [hsrc]
    exact (by decide : ∀ n ∈ [16, 32], n ≠ 4) _ hn
  have hsources : pair.packForm.sources.Ready T := by cases pair <;> exact hready
  have hcomputes : (ShuffleIns.pshufb pair.packForm).Computes T σ := shuffle_computes hb ⟨hn, hpair⟩
  refine (concretize_achieves hP hb hs hready).bind fun _ s₁ l hconc => ?_
  have hcleared := hconc.cleared (dropped_eq_places hP hfour)
  have hv₁ := hv.of_kept hcleared.none_or_eq
  refine (computes_delivers (f := shuffleBytes) hP hb hconc.wellFormed hv₁ hmem hpair hsources hdst
    hcomputes).mono fun _ s' l' hright => ⟨fun k hk hsym => ?_, fun ρ hheld => ?_⟩
  · exact (hconc.settled hk hsym).mono (List.subset_append_left l l')
  · have hsame (ρ : Input) (hheld : Held T (T.peek s) pair.src ρ) (o : Operand Reg) :
        o.bv T (T.peek s₁) ρ = o.bv T (T.peek s) ρ :=
      bv_congr (hcleared.byteValue_eq hheld) o
    have hvalue (ρ : Input) (hheld : Held T (T.peek s) pair.src ρ) :
        shuffleBytes (pair.packForm.src1Bv T (T.peek s₁) ρ) (pair.packForm.src2Bv T (T.peek s₁) ρ) =
          shuffleBytes (pair.packForm.src1Bv T (T.peek s) ρ)
            (pair.packForm.src2Bv T (T.peek s) ρ) := by
      simp only [PackForm.src1Bv, PackForm.src2Bv, hsame ρ hheld]
    exact (hright ρ).congr (hvalue ρ hheld) (hvalue _ (hv.held pair.src))

include hP hb hs hv in
/-- A shuffle by an immediate. -/
theorem shuffleSource_delivers (hone : T.pin.regSize pair.packForm.dst ≠ 1)
    (hsrc : pair.src.size T = T.pin.regSize pair.packForm.dst) (hready : pair.SourceReady T)
    (hdst : T.Tracked pair.packForm.dst) {result : Expr → Build Expr}
    {f : BitVec ((Operand.reg pair.packForm.dst).size T * 8) →
      BitVec ((Operand.reg pair.packForm.dst).size T * 8)}
    (hres : ∀ a e, Expresses (T.pin.regSize pair.packForm.dst * 8) a e →
      Builds σ exactly (result e) (Expresses (T.pin.regSize pair.packForm.dst * 8)
        fun ρ => f (a ρ))) :
    Achieves (body σ) exactly (T.vex (pair.source T) pair.packForm.dst result) s fun _ s' _ => ∀ ρ,
      Delivers σ.input T (T.peek s') (.reg pair.packForm.dst)
        (fun ρ => f ((pair.src.bv T (T.peek s) ρ).setWidth _)) ρ := by
  have hattended : pair.src.size T ≠ 1 := by
    rw [hsrc]
    exact hone
  have hreturns : Returns (body σ) exactly (pair.source T) s := by
    cases pair with
    | regReg dst src => exact getExprFromReg_returns hP hb hs hready
    | regMem dst m => exact getExprFromMemSrc_returns hP hb hs hready
  have hgets : Gets σ T (pair.source T) pair.src := by
    cases pair with
    | regReg dst src => exact get_gets hP hb (.reg src)
    | regMem dst m => exact getExprFromMemSrc_gets hP hb m
  have hattends : Attends σ T (pair.source T) pair.src := by
    cases pair with
    | regReg dst src => exact get_attends hP hb hattended
    | regMem dst m => exact getExprFromMemSrc_attends hP hb hattended
  have h := vexSource_achieves
      (u := fun ρ => f ((pair.src.bv T (T.peek s) ρ).setWidth _)) hP hb hs hv
    hreturns hgets hattends hdst fun _ e he =>
      hres _ e ((he : Expresses _ _ e).setWidth (congrArg (· * 8) hsrc))
  refine h.mono fun _ s' _ ⟨_, hprovides⟩ ρ =>
    (hprovides.delivers_iff ρ).2 ⟨fun _ => rfl, fun hnot => ?_⟩
  rw [hv.bv_constant hnot ρ]

include hP hb hs hv in
/-- **Shuffles.** What is built has the width of the destination and is the shuffle of the operands,
for every control, also one that depends on the input. The handlers return and deliver that; where
PSHUFB concretises its control it has an equation for it, and delivers for the inputs that give
the control the bytes of the process. -/
theorem instrumentShuffle_delivers (hins : ins.Handled T) (hready : ins.Ready T)
    (hdst : T.Tracked ins.dst) :
    ins.Computes T σ ∧ Achieves (body σ) exactly (ins.handler T) s fun _ s' l =>
      (∀ o ∈ ins.fixed, ∀ k ∈ o.places T, Symbolic (T.peek s) k → T.Settled (T.peek s) l k) ∧
        ∀ ρ, (∀ o ∈ ins.fixed, Held T (T.peek s) o ρ) →
          Delivers σ.input T (T.peek s') (.reg ins.dst) (ins.machine T (T.peek s)) ρ := by
  have hcomputes := shuffle_computes (σ := σ) hb hins
  refine ⟨hcomputes, ?_⟩
  cases ins with
  | pshufb form =>
      have hmem : T.pin.regSize form.dst ∈ [8, 16, 32] := List.mem_cons_of_mem 8 hins.1
      have hvex := computes_delivers (f := shuffleBytes) hP hb hs hv hmem hins.2
          hready hdst hcomputes
      cases form with
      | regReg dst src =>
          refine (pshufb_delivers (.regReg dst src) hP hb hs hv hins.1 hins.2 hready hdst).mono ?_
          intro _ s' l ⟨hsettled, hright⟩
          refine ⟨fun o ho => ?_, fun ρ hheld => hright ρ (hheld _ List.mem_cons_self)⟩
          obtain rfl := List.mem_singleton.1 ho
          exact hsettled
      | regMem dst m =>
          refine (pshufb_delivers (.regMem dst m) hP hb hs hv hins.1 hins.2 hready hdst).mono ?_
          intro _ s' l ⟨hsettled, hright⟩
          refine ⟨fun o ho => ?_, fun ρ hheld => hright ρ (hheld _ List.mem_cons_self)⟩
          obtain rfl := List.mem_singleton.1 ho
          exact hsettled
      | regRegReg | regRegMem => exact hvex.mono fun _ s' _ hright => ⟨nofun, fun ρ _ => hright ρ⟩
  | pshufd imm pair =>
      have hone : T.pin.regSize pair.packForm.dst ≠ 1 := by
        rw [hins.1]
        decide
      have h := shuffleSource_delivers (f := shuffleDwords imm.toNat) hP hb hs hv hone
          hins.2 hready hdst
        hcomputes
      cases pair <;> exact h.mono fun _ s' _ hright => ⟨nofun, fun ρ _ => hright ρ⟩
  | pshufw high imm pair =>
      have hone : T.pin.regSize pair.packForm.dst ≠ 1 :=
        (by decide : ∀ n ∈ [16, 32], n ≠ 1) _ hins.1
      have h := shuffleSource_delivers (f := shuffleWords high imm.toNat) hP hb hs hv
          hone hins.2 hready
        hdst hcomputes
      cases pair <;> exact h.mono fun _ s' _ hright => ⟨nofun, fun ρ _ => hright ρ⟩

end Handlers

open X86Reg (process shadow)

/-- `PSHUFB XMM0, XMM1`, where a byte of the control is read from the input. -/
theorem instrumentShuffle_pshufb : ∃ s' l w',
    Runs (body quietSession) (process.instrumentPshufbRegReg .xmm0 .xmm1 (shadow [xmm1Cell]))
      (freshWorld 1) ((), s', l) w' ∧
      process.Settled (process.peek (shadow [xmm1Cell])) l (.reg .ymm1 0) ∧
      Delivers quietSession.input process (process.peek s') (.reg .xmm0) (fun ρ =>
        shuffleBytes (packedXmm.src1Bv process (process.peek (shadow [xmm1Cell])) ρ)
          (packedXmm.src2Bv process (process.peek (shadow [xmm1Cell])) ρ)) fun _ => 0 := by
  have hins : (ShuffleIns.pshufb packedXmm).Handled process := ⟨by decide, rfl, rfl⟩
  have h := (instrumentShuffle_delivers (σ := quietSession) X86Reg.registers_documented rfl
    (X86Reg.shadow_init_wellFormed [xmm1Cell]) (X86Reg.shadow_consistent [xmm1Cell])
    hins packedXmm_ready (X86Reg.tracked (by decide))).2
  obtain ⟨⟨_, s', l⟩, w', hr, _, hsettled, hright⟩ := h (freshWorld 1) trivial
    (safe_exactly (n := 40) (by decide +kernel))
  refine ⟨s', l, w', hr, ?_, hright _ fun o ho => ?_⟩
  · exact hsettled _ List.mem_cons_self _ (by decide) ⟨.read 0, rfl, by decide⟩
  · obtain rfl := List.mem_singleton.1 ho
    exact (by decide : ∀ k ∈ (Operand.reg X86Reg.xmm1).places process,
      process.byteValue (process.peek (shadow [xmm1Cell])) (fun _ => 0) k =
        (process.byteAt k).toNat)

/-- `PSHUFLW XMM1, XMM0, 0` -/
def pshuflwXmm : ShuffleIns X86Reg :=
  .pshufw false 0 (.regReg .xmm1 .xmm0)

/-- `PSHUFLW XMM1, XMM0, 0` of the quotient divides by zero in the lowest word. -/
theorem instrumentShuffle_pshuflw_not : wideShadow.WellFormed ∧
    process.Consistent quietSession.input (process.peek wideShadow) ∧ ∃ s' l w',
    Runs (body quietSession) (process.instrumentPshufwRegRegImm .xmm1 .xmm0 0 false wideShadow)
      (freshWorld 100) ((), s', l) w' ∧
      ¬ Delivers quietSession.input process (process.peek s') (.reg .xmm1)
        (pshuflwXmm.machine process (process.peek wideShadow))
        fun _ => 255 := by
  have hp : ((process.instrumentPshufwRegRegImm .xmm1 .xmm0 0 false wideShadow).run
      (exec (body quietSession) 40) (freshWorld 100)).map (fun x =>
        (process.peek x.1.2.1 (.reg .ymm1 0)).map fun e => e.value fun _ => 255) =
          some (some 255) := by
    decide +kernel
  obtain ⟨⟨⟨_, s', l⟩, w'⟩, hrun, hbyte⟩ := Option.map_eq_some_iff.1 hp
  refine ⟨wideShadow_wellFormed, wideShadow_consistent, s', l, w', ⟨40, hrun⟩, fun hright => ?_⟩
  obtain ⟨e, he, hval⟩ := Option.map_eq_some_iff.1 hbyte
  have he : process.peek s' ((Operand.reg .xmm1).place process 0) = some e := he
  have hzero : Bytes.byte (pshuflwXmm.machine process (process.peek wideShadow)
      fun _ => 255).toNat 0 = 0 := by
    decide +kernel
  have h := hright 0 (by decide)
  rw [he] at h
  exact absurd ((hval.symm.trans h).trans hzero) (by decide)

end Process

end Qsym
