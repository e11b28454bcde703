import Qsym.Builder.Condition
import Qsym.Instrument.Source

/-!
# Qsym.Instrument.Extract

**`PEXTR`** takes an element out of a register of 128 bits. The handler keeps of the immediate
what a destination of several elements has room for (`pextrCount`), and shifts by a count as wide
as the destination. If nothing is kept the lowest element is taken, and else the shift is not
well sorted and the tool stops.
-/

namespace X86

open Bits

/-- The element of `w` bits that `imm` selects modulo their number, with zeros above. -/
def element (w imm : Nat) (n : Nat) (a : BitVec 128) : BitVec n :=
  (lane w a (imm % (128 / w))).setWidth n

end X86

namespace Qsym

open Procedure X86 Bits
open SymbolicExprBuilder (chain)

/-! ### Counts that are too narrow -/

section Builder

variable {σ : Session} {ok : MethodCall → Prop} {l src : Expr} {n width : Nat}
  {imm : Addr} {a : Input → BitVec 128}

/-- A shift by the constant zero answers its operand, whatever the width of the constant. -/
theorem createAShr_zero (ref : Nat) :
    Builds σ ok (chain.createAShr l (.constant ref n 0)) (· = l) := by
  refine builds_create fun _ => builds_create fun _ => builds_create fun _ => ?_
  have hzero : (Expr.constant ref n 0).isZero = true := by simp [Expr.isZero]
  show Builds σ ok (CommonSimplifyExprBuilder.createAShr [.constantFolding, .cache, .base] l
    (.constant ref n 0)) _
  rw [CommonSimplifyExprBuilder.createAShr, if_pos hzero]
  exact .ret rfl

/-- A shift by another constant of another width stops. -/
theorem createAShr_stops {ref : Nat} {v : BitVec n} (hv : v ≠ 0) (hl : l.bits ≠ n) :
    Yields (body σ) ok (chain.createAShr l (.constant ref n v)) fun _ => False := by
  have hasserted : (Call.binary .ashr l (.constant ref n v)).asserted = false := by
    exact decide_eq_false hl
  have hbase : Yields (body σ) ok
      (ExprBuilder.createAShr [.cache, .base] l (.constant ref n v)) fun _ => False := by
    refine cache_stops rfl ?_
    show Yields (body σ) ok (Build.makeShared (.binary .ashr l (.constant ref n v))) _
    rw [Build.makeShared, hasserted]
    exact .stop
  refine Yields.call fun _ => Yields.call fun _ => Yields.call fun _ => ?_
  have hzero : ¬ (Expr.constant ref n v).isZero = true := by simpa [Expr.isZero] using hv
  show Yields (body σ) ok (CommonSimplifyExprBuilder.createAShr [.constantFolding, .cache, .base] l
    (.constant ref n v)) _
  rw [CommonSimplifyExprBuilder.createAShr, if_neg hzero]
  refine Yields.call fun _ => ?_
  show Yields (body σ) ok (ConstantFoldingExprBuilder.createArith [.constantFolding, .cache, .base]
    [.cache, .base] .ashr l (.constant ref n v)) _
  cases l with
  | constant ref' m u =>
      have hwidth : n ≠ m := Ne.symm hl
      rw [ConstantFoldingExprBuilder.createArith, dif_neg hwidth]
      exact .stop
  | _ => exact hbase

/-- What `doPextr` keeps of the immediate. -/
def pextrCount (imm : Addr) (bits width : Nat) : Nat :=
  imm.toNat &&& (bits / (width * 8) - 1) * (width * 8)

theorem pextrCount_lt (hn : 0 < n) : pextrCount imm n width < n := by
  have hmask : (n / (width * 8) - 1) * (width * 8) < n := by
    have hle := Nat.div_mul_le_self n (width * 8)
    rcases Nat.eq_zero_or_pos (n / (width * 8) * (width * 8)) with hzero | hpos
    · rw [Nat.sub_mul, hzero, Nat.zero_sub]
      exact hn
    · have hwidth : 0 < width * 8 := Nat.pos_of_mul_pos_left hpos
      rw [Nat.sub_mul]
      omega
  exact Nat.lt_of_le_of_lt Nat.and_le_right hmask

theorem doPextr_lowest (ha : Expresses 128 a src) (hwidth : 0 < width * 8) (hle : width * 8 ≤ 128)
    (hn : width * 8 ≤ n) (hcount : pextrCount imm n width = 0) :
    Builds σ exactly (chain.doPextr src imm n width)
      (Expresses n fun ρ => element (width * 8) 0 n (a ρ)) := by
  unfold ExprBuilder.doPextr
  refine Total.bind (createConstant_node _ (Nat.lt_of_lt_of_le hwidth hn)) fun count hc => ?_
  obtain ⟨ref, rfl⟩ := hc
  change Builds σ exactly (do
    let e ← chain.createAShr src (.constant ref n (BitVec.ofNat n (pextrCount imm n width)))
    let e ← chain.createExtract e 0 (width * 8)
    chain.createZExt e n) _
  rw [hcount]
  refine Total.bind (createAShr_zero ref) fun e he => ?_
  rw [he]
  refine Total.bind (ha.extract_builds (i := 0) hwidth (by omega)) fun e he => ?_
  refine Total.mono (he.ext_builds .zext hn) fun e he => he.congr fun ρ => ?_
  simp only [element, lane, Nat.zero_mod, Nat.zero_mul]
  rfl

theorem doPextr_stops (ha : src.IsBV 128) (hpos : 0 < n) (hn : n < 128)
    (hcount : pextrCount imm n width ≠ 0) :
    Yields (body σ) ok (chain.doPextr src imm n width) fun _ => False := by
  have hvalue : BitVec.ofNat n (pextrCount imm n width) ≠ 0 := by
    intro hzero
    have hlt : pextrCount imm n width < 2 ^ n := (pextrCount_lt hpos).trans Nat.lt_two_pow_self
    have hmod := congrArg BitVec.toNat hzero
    rw [BitVec.toNat_ofNat, Nat.mod_eq_of_lt hlt] at hmod
    exact hcount hmod
  have hbits : src.bits ≠ n := by
    rw [ha.bits]
    exact hn.ne'
  unfold ExprBuilder.doPextr
  refine Yields.bind (Yields.of_total (createConstant_node _ hpos)) fun count hc => ?_
  obtain ⟨ref, rfl⟩ := hc
  exact Yields.bind (createAShr_stops hvalue hbits) fun _ h => h.elim

end Builder

/-! ### The handlers -/

/-- The operands of `PEXTR`. -/
inductive PextrForm (Reg : Type)
  | reg (dst src : Reg)
  | mem (m : MemArg Reg) (src : Reg)

namespace PextrForm

open Process

variable {Reg : Type} [DecidableEq Reg]

def dst : PextrForm Reg → Operand Reg
  | reg dst _ => .reg dst
  | mem m _ => .mem m.addr m.size

def src : PextrForm Reg → Reg
  | reg _ src | mem _ src => src

def handler (T : Process Reg) (imm : Addr) (width : Nat) : PextrForm Reg → Handler Reg Unit
  | reg dst src => T.instrumentPextrRegRegImm dst src imm width
  | mem m src => T.instrumentPextrMemRegImm m src imm width

omit [DecidableEq Reg] in
/-- The sizes of the instructions: the source has 128 bits, a register 32 or 64, and memory
those of an element. -/
def Handled (T : Process Reg) (width : Nat) (form : PextrForm Reg) : Prop :=
  width ∈ [1, 2, 4, 8] ∧ T.pin.regSize form.src = 16 ∧ match form with
    | reg dst _ => T.pin.regSize dst ∈ [4, 8] ∧ width ≤ T.pin.regSize dst
    | mem m _ => m.size = width

omit [DecidableEq Reg] in
/-- The operands can be read and written. -/
def Ready (T : Process Reg) (s : Shadow) (form : PextrForm Reg) : Prop :=
  T.Tracked form.src ∧ match form with
    | reg dst _ => T.Tracked dst
    | mem m _ => T.Addressed m ∧ Mapped s.memory m.addr m.size

omit [DecidableEq Reg] in
/-- The source. -/
def srcBv (T : Process Reg) (v : ShadowMap Reg) (form : PextrForm Reg) (ρ : Input) : BitVec 128 :=
  ((Operand.reg form.src).bv T v ρ).setWidth 128

omit [DecidableEq Reg] in
/-- What the handler keeps of the immediate. -/
def count (T : Process Reg) (imm : Addr) (width : Nat) (form : PextrForm Reg) : Nat :=
  pextrCount imm (form.dst.size T * 8) width

omit [DecidableEq Reg] in
/-- What the machine leaves. -/
def machine (T : Process Reg) (imm : Addr) (width : Nat) (v : ShadowMap Reg) (form : PextrForm Reg)
    (ρ : Input) : BitVec (form.dst.size T * 8) :=
  element (width * 8) imm.toNat _ (form.srcBv T v ρ)

omit [DecidableEq Reg] in
theorem Handled.sizes {T : Process Reg} {width : Nat} {form : PextrForm Reg}
    (h : form.Handled T width) :
    0 < width * 8 ∧ width * 8 ≤ 64 ∧ width * 8 ≤ form.dst.size T * 8 ∧
      form.dst.size T * 8 ≤ 64 := by
  obtain ⟨hwidth, -, hdst⟩ := h
  obtain ⟨hpos, hle⟩ := (by decide : ∀ w ∈ [1, 2, 4, 8], 0 < w * 8 ∧ w * 8 ≤ 64) _ hwidth
  cases form with
  | reg dst src =>
      have hsize : T.pin.regSize dst * 8 ≤ 64 := (by decide : ∀ n ∈ [4, 8], n * 8 ≤ 64) _ hdst.1
      exact ⟨hpos, hle, Nat.mul_le_mul_right 8 hdst.2, hsize⟩
  | mem m src =>
      have hdst : (dst (.mem m src)).size T = width := hdst
      rw [hdst]
      exact ⟨hpos, hle, Nat.le_refl _, hle⟩

end PextrForm

namespace Process

open Handler Stateful

variable {Reg : Type} [DecidableEq Reg] {T : Process Reg} {σ : Session} {s : Shadow}
variable {form : PextrForm Reg} {imm : Addr} {width : Nat}

section Handlers

variable (hP : T.pin.Documented) (hb : T.builder = chain) (hs : s.WellFormed)
  (hv : T.Consistent σ.input (T.peek s)) (hins : form.Handled T width)

include hb hins in
theorem pextr_builds (hcount : form.count T imm width = 0) (e : Expr)
    (he : Expresses ((Operand.reg form.src).size T * 8)
      ((Operand.reg form.src).bv T (T.peek s)) e) :
    Builds σ exactly (T.builder.doPextr e imm (form.dst.size T * 8) width)
      (Expresses (form.dst.size T * 8) fun ρ =>
        element (width * 8) 0 _ (form.srcBv T (T.peek s) ρ)) := by
  obtain ⟨hpos, hle, hdst, -⟩ := hins.sizes
  have hsrc : (Operand.reg form.src).size T * 8 = 128 := congrArg (· * 8) hins.2.1
  rw [hb]
  exact doPextr_lowest (he.setWidth hsrc) hpos (by omega) hdst hcount

include hP hb hs hv hins in
/-- Where nothing is kept of the immediate the lowest element is taken. -/
theorem pextr_provides (hready : form.Ready T s)
    (hcount : Depends T (T.peek s) (.reg form.src) → form.count T imm width = 0) :
    Achieves (body σ) exactly (form.handler T imm width) s fun _ s' _ => s'.WellFormed ∧
      Provides T (Depends T (T.peek s) (.reg form.src)) (T.peek s') form.dst
        fun ρ => element (width * 8) 0 _ (form.srcBv T (T.peek s) ρ) := by
  have hbuild (hdep : Depends T (T.peek s) (.reg form.src)) :=
    pextr_builds (σ := σ) (s := s) hb hins (hcount hdep)
  have hone : (Operand.reg form.src).size T ≠ 1 := by
    have hsrc : (Operand.reg form.src).size T = 16 := hins.2.1
    rw [hsrc]
    decide
  have hgets : Gets σ T (T.getExprFromReg form.src) (.reg form.src) :=
    get_gets hP hb (.reg form.src)
  have hattends : Attends σ T (T.getExprFromReg form.src) (.reg form.src) := get_attends hP hb hone
  have hread (s₁ : Shadow) (h₁ : s₁.WellFormed) :
      Returns (body σ) exactly (T.getExprFromReg form.src) s₁ :=
    getExprFromReg_returns hP hb h₁ hready.1
  cases form with
  | reg dst src => exact vexSource_achieves hP hb hs hv (hread s hs) hgets hattends hready.2 hbuild
  | mem m src =>
      obtain ⟨-, haddressed, hmapped⟩ := hready
      have hbits : m.size * 8 ≤ 64 := hins.sizes.2.2.2
      have hsize : m.size ≤ 2 ^ 64 := by omega
      refine ((makeAddrConcrete_returns hP hb hs haddressed).achieves
        ((makeAddrConcrete_aged hP hb hs m).and
        (T.makeAddrConcrete_keepsMemory m s))).bind fun _ s₁ _ ⟨h₁, hmemory⟩ => ?_
      have hkeeps : Ensures (body σ) exactly (T.getExprFromReg src) s₁
          fun _ s₂ _ => Mapped s₂.memory m.addr m.size := by
        refine (T.getExprFromReg_keepsMemory src s₁).mono fun _ s₂ _ h₂ => ?_
        rw [h₂, hmemory]
        exact hmapped
      have hclear (s₂ : Shadow) (h₂ : s₂.WellFormed) :
          Achieves (body σ) exactly (clearExprFromMem m.addr m.size) s₂ fun _ s' _ =>
            s'.WellFormed ∧ ∀ k ∈ (Operand.mem m.addr m.size).places T, T.peek s' k = none :=
        (clearExprFromMem_returns m.addr m.size).achieves
          ((clearExprFromMem_cleared m.addr m.size).mono
          fun _ _ _ ⟨_, _, hcleared, hwf⟩ => ⟨hwf h₂, hcleared.empty⟩)
      have h := source_achieves (d := .mem m.addr m.size)
          (P := fun s => Mapped s.memory m.addr m.size)
        hP hb h₁.wellFormed (h₁.fades.consistent hv) (hread s₁ h₁.wellFormed) hgets hattends hkeeps
        (fun s₂ h₂ _ => hclear s₂ h₂) hsize
          (fun s₂ e hmapped he => setExprToMem_returns hb hmapped he.isBV)
        fun hdep e he => hbuild (h₁.fades.depends_iff.1 hdep) e (h₁.fades.bv hv _ ▸ he)
      rw [h₁.fades.depends_iff] at h
      exact h

include hP hb hs hv hins in
/-- Where something is kept of it the tool stops on a source that depends on the input. -/
theorem pextr_stops (hdep : Depends T (T.peek s) (.reg form.src))
    (hcount : form.count T imm width ≠ 0) :
    Ensures (body σ) exactly (form.handler T imm width) s fun _ _ _ => False := by
  obtain ⟨hpos, -, hdst, hle⟩ := hins.sizes
  have hbuild (e : Expr) (he : e.IsBV ((Operand.reg form.src).size T * 8)) :
      Yields (body σ) exactly (T.builder.doPextr e imm (form.dst.size T * 8) width)
        fun _ => False := by
    have hsrc : (Operand.reg form.src).size T * 8 = 128 := congrArg (· * 8) hins.2.1
    rw [hsrc] at he
    rw [hb]
    exact doPextr_stops he (by omega) (by omega) hcount
  have hgets : Gets σ T (T.getExprFromReg form.src) (.reg form.src) :=
    get_gets hP hb (.reg form.src)
  cases form with
  | reg dst src => exact source_stops hs hv hgets hdep fun e he => hbuild e he.isBV
  | mem m src =>
      refine Ensures.bind (makeAddrConcrete_aged hP hb hs m) fun _ s₁ _ h₁ => ?_
      exact source_stops h₁.wellFormed (h₁.fades.consistent hv) hgets (h₁.fades.depends_iff.2 hdep)
        fun e he => hbuild e he.isBV

include hP hb hs hv hins in
/-- **`PEXTR`.** The handler returns and delivers the element that the immediate selects for an
input, in well-sorted expressions, if and only if the source does not depend on the input, or
nothing is kept of the immediate and the element has for this input the value of the lowest one. -/
theorem instrumentPextr_selects_iff (hready : form.Ready T s) (w : World)
    (hsafe : Safe (body σ) exactly (form.handler T imm width s) w) (ρ : Input) :
    (∃ s' l w', Runs (body σ) (form.handler T imm width s) w ((), s', l) w' ∧ s'.WellFormed ∧
      Delivers σ.input T (T.peek s') form.dst (form.machine T imm width (T.peek s)) ρ) ↔
        (Depends T (T.peek s) (.reg form.src) → form.count T imm width = 0 ∧
          element (width * 8) 0 (form.dst.size T * 8) (form.srcBv T (T.peek s) ρ) =
            form.machine T imm width (T.peek s) ρ) := by
  have hsame (hnot : ¬ Depends T (T.peek s) (.reg form.src)) :
      form.machine T imm width (T.peek s) ρ = form.machine T imm width (T.peek s) σ.input := by
    unfold PextrForm.machine PextrForm.srcBv
    rw [hv.bv_constant hnot ρ]
  by_cases hcount : Depends T (T.peek s) (.reg form.src) → form.count T imm width = 0
  · obtain ⟨⟨_, s', l⟩, w', hr, -, hs', hprovides⟩ :=
      pextr_provides hP hb hs hv hins hready hcount w trivial hsafe
    have hiff : Delivers σ.input T (T.peek s') form.dst (form.machine T imm width (T.peek s)) ρ ↔
        _ :=
      hprovides.delivers_iff ρ
    constructor
    · rintro ⟨s₁, l₁, w₁, hr₁, -, hright⟩ hdep
      cases (hr.unique hr₁).1
      exact ⟨hcount hdep, (hiff.1 hright).1 hdep⟩
    · exact fun h => ⟨s', l, w', hr, hs', hiff.2 ⟨fun hdep => (h hdep).2, hsame⟩⟩
  · have hdep : Depends T (T.peek s) (.reg form.src) := by
      by_contra hnot
      exact hcount fun hdep => absurd hdep hnot
    constructor
    · rintro ⟨s', l, w', hr, -⟩
      have hstops := pextr_stops hP hb hs hv hins hdep fun h => hcount fun _ => h
      exact (hstops w _ w' hsafe hr).elim
    · exact fun h => absurd (fun hdep => (h hdep).1) hcount

end Handlers

open X86Reg (process shadow)

/-- `PEXTRD ECX, XMM1` -/
def pextrdXmm : PextrForm X86Reg :=
  .reg .ecx .xmm1

theorem pextrdXmm_handled : pextrdXmm.Handled process 4 :=
  ⟨by decide, rfl, by decide, by decide⟩

theorem pextrdXmm_ready (s : Shadow) : pextrdXmm.Ready process s :=
  ⟨⟨by decide +kernel, by decide⟩, ⟨by decide +kernel, by decide⟩⟩

/-- `PEXTRD ECX, XMM1, 4` takes the lowest doubleword. -/
theorem instrumentPextr_pextrd : ∃ s' l w',
    Runs (body quietSession) (pextrdXmm.handler process 4 4 (shadow [xmm1Cell])) (freshWorld 1)
      ((), s', l) w' ∧ s'.WellFormed ∧
      Delivers quietSession.input process (process.peek s') pextrdXmm.dst
        (pextrdXmm.machine process 4 4 (process.peek (shadow [xmm1Cell]))) fun _ => 80 :=
  (instrumentPextr_selects_iff X86Reg.registers_documented rfl
    (X86Reg.shadow_init_wellFormed [xmm1Cell])
    (X86Reg.shadow_consistent [xmm1Cell]) pextrdXmm_handled (pextrdXmm_ready _) (freshWorld 1)
    (safe_exactly (n := 40) (by decide +kernel)) fun _ => 80).2 fun _ => ⟨by decide, rfl⟩

/-- `PEXTRD ECX, XMM1, 1` takes the lowest doubleword instead of the second. -/
theorem instrumentPextr_pextrd_not : ∃ s' l w',
    Runs (body quietSession) (pextrdXmm.handler process 1 4 (shadow [xmm1Cell])) (freshWorld 1)
      ((), s', l) w' ∧
      ¬ Delivers quietSession.input process (process.peek s') pextrdXmm.dst
        (pextrdXmm.machine process 1 4 (process.peek (shadow [xmm1Cell]))) fun _ => 5 := by
  have hp : ((pextrdXmm.handler process 1 4 (shadow [xmm1Cell])).run
      (exec (body quietSession) 40) (freshWorld 1)).map (fun x =>
        (process.peek x.1.2.1 (.reg .rcx 0)).map fun e => e.value fun _ => 5) =
          some (some 5) := by
    decide +kernel
  obtain ⟨⟨⟨_, s', l⟩, w'⟩, hrun, hbyte⟩ := Option.map_eq_some_iff.1 hp
  refine ⟨s', l, w', ⟨40, hrun⟩, fun hright => ?_⟩
  obtain ⟨e, he, hval⟩ := Option.map_eq_some_iff.1 hbyte
  have he : process.peek s' (pextrdXmm.dst.place process 0) = some e := he
  have hzero : Bytes.byte (pextrdXmm.machine process 1 4 (process.peek (shadow [xmm1Cell]))
      fun _ => 5).toNat 0 = 0 := by
    decide +kernel
  have h := hright 0 (by decide)
  rw [he] at h
  exact absurd ((hval.symm.trans h).trans hzero) (by decide)

end Process

end Qsym
