import Qsym.Instrument.Result

/-!
# Qsym.Instrument.EffectiveAddress

The address of a memory operand **by value**: base, scaled index and displacement, where a
register that is absent counts as zero and one that does not depend on the input counts as
what the process has in it. `LEA` stores the lowest bytes of the address.
-/

namespace Qsym

open Procedure Qsym.Expr

namespace Process

open Handler Stateful
open SymbolicExprBuilder (chain)

variable {Reg : Type} [DecidableEq Reg] (T : Process Reg)

/-- The value of a register of an address. -/
def addrRegValue (v : ShadowMap Reg) (r : Reg) (ρ : Input) : Addr :=
  if r ≠ T.pin.regInvalid then ((Operand.reg r).bv T v ρ).setWidth 64 else 0

/-- The register is read as nothing if it does not depend on the input. -/
def FetchedAddrReg (v : ShadowMap Reg) (r : Reg) (x : Option Expr) : Prop :=
  match x with
  | none => ∀ k ∈ T.addrRegPlaces r, ¬ Symbolic v k
  | some e => (∃ k ∈ T.addrRegPlaces r, Symbolic v k) ∧ Expresses 64 (T.addrRegValue v r) e

/-- A summand of an address, which is left out only if it is zero. -/
def Summand (u : Input → Addr) (x : Option Expr) : Prop :=
  match x with
  | none => ∀ ρ, u ρ = 0
  | some e => Expresses 64 u e

end Process

namespace MemArg

variable {Reg : Type} [DecidableEq Reg] (T : Process Reg) (m : MemArg Reg)

/-- Base, scaled index and displacement. -/
def effectiveAddress (v : ShadowMap Reg) (ρ : Input) : Addr :=
  T.addrRegValue v m.base ρ + T.addrRegValue v m.index ρ * BitVec.ofNat 64 m.scale + m.disp

/-- From `s` to `s'` the lowest bytes of the address are stored in `dst`, or it is cleared. -/
def LoadedTo (s : Shadow) (dst : Reg) (s' : Shadow) : Prop :=
  ∃ s₁, T.Aged s s₁ ∧ s'.eflags = s.eflags ∧
    (¬ m.SymbolicAddress T s → T.Written s₁ (· ∈ (Operand.reg dst).written T) none s') ∧
    (m.SymbolicAddress T s → T.Puts (T.peek s₁) (T.peek s') (.reg dst) fun ρ =>
      (m.effectiveAddress T (T.peek s) ρ).setWidth _)

/-- The registers of the address have the width of addresses. -/
def Long : Prop :=
  ∀ r ∈ [m.base, m.index], r ≠ T.pin.regInvalid → T.pin.regSize r = 8

end MemArg

namespace Process

open Handler Stateful
open SymbolicExprBuilder (chain)

variable {Reg : Type} [DecidableEq Reg] {T : Process Reg} {σ : Session} {s : Shadow}
variable {v : ShadowMap Reg} {r dst : Reg} {x y : Option Expr} {u w : Input → Addr} {m : MemArg Reg}

theorem Fades.addrRegValue {v' : ShadowMap Reg} {input : Input} (h : Fades v v')
    (hv : T.Consistent input v) (r : Reg) : T.addrRegValue v' r = T.addrRegValue v r := by
  funext ρ
  rw [Process.addrRegValue, Process.addrRegValue, h.bv hv]

theorem Fades.fetchedAddrReg {v' : ShadowMap Reg} {input : Input} (h : Fades v v')
    (hv : T.Consistent input v) (hx : T.FetchedAddrReg v' r x) : T.FetchedAddrReg v r x := by
  cases x with
  | none => exact fun k hk => mt h.symbolic_iff.2 (hx k hk)
  | some e =>
      obtain ⟨⟨k, hk, hsym⟩, he⟩ := hx
      exact ⟨⟨k, hk, h.symbolic_iff.1 hsym⟩, h.addrRegValue hv r ▸ he⟩

/-- A register that does not depend on the input. -/
theorem addrRegValue_of_not_symbolic {input : Input} (hv : T.Consistent input v)
    (hx : ∀ k ∈ T.addrRegPlaces r, ¬ Symbolic v k) (hr : r ≠ T.pin.regInvalid → T.pin.regSize r = 8)
    (ρ : Input) : T.addrRegValue v r ρ =
      if r ≠ T.pin.regInvalid then BitVec.ofNat 64 (T.getRegValue r) else 0 := by
  rw [addrRegPlaces] at hx
  unfold addrRegValue
  split
  next hvalid =>
      have hwidth : (Operand.reg r).size T * 8 = 64 := by rw [Operand.size, hr hvalid]
      rw [if_pos hvalid] at hx
      rw [hv.bv hx, value_reg, BitVec.setWidth_ofNat_of_le (by omega)]
  next => rfl

/-! ### The summands -/

section Summands

variable (hb : T.builder = chain) {input : Input} (hv : T.Consistent input v)
include hb

theorem extendPart_yields (h : T.FetchedAddrReg v r x) :
    Yields (body σ) exactly (T.extendPart x) (T.FetchedAddrReg v r) := by
  cases x with
  | none => exact .ret h
  | some e =>
      obtain ⟨hsym, he⟩ := h
      unfold extendPart
      simp only [hb, he.bits]
      refine Yields.bind (he.ext .zext (Nat.le_refl 64)) fun e' he' =>
        .ret ⟨hsym, he'.congr fun ρ => ?_⟩
      exact BitVec.setWidth_eq _

include hv

theorem getBaseExpr_yields (h : T.FetchedAddrReg v r x) (hr : r ≠ T.pin.regInvalid →
    T.pin.regSize r = 8)
    (disp : Addr) : Yields (body σ) exactly (T.getBaseExpr r disp x) fun y =>
      (x ≠ none → y ≠ none) ∧ Summand (fun ρ => T.addrRegValue v r ρ + disp) y := by
  have hconst {n : Nat} (u : Input → Addr) (hu : ∀ ρ, BitVec.ofNat 64 n = u ρ) :
      Yields (body σ) exactly (T.builder.createConstant n addrBits) (Expresses 64 u) := by
    rw [hb]
    exact (createConstant_expresses n (by decide)).mono fun e he => he.congr hu
  cases x with
  | some e =>
      obtain ⟨-, he⟩ := h
      unfold getBaseExpr
      simp only
      split
      next =>
          rw [he.bits]
          refine Yields.bind (hconst (fun _ => disp) fun _ => by simp) fun d hd => ?_
          rw [hb]
          exact (he.binary (k := .add) nofun rfl hd).bind fun e' he' => .ret ⟨nofun, he'⟩
      next hzero =>
          obtain rfl : disp = 0 := by simpa using hzero
          exact .ret ⟨nofun, he.congr fun ρ => (BitVec.add_zero _).symm⟩
  | none =>
      have hval := addrRegValue_of_not_symbolic hv h hr
      unfold getBaseExpr
      simp only
      split
      next hvalid =>
          refine (hconst _ fun ρ => ?_).bind fun e he => .ret ⟨nofun, he⟩
          rw [hval, if_pos hvalid, BitVec.ofNat_add, BitVec.ofNat_toNat, BitVec.setWidth_eq]
      next hinvalid =>
          have hsum (ρ : Input) : T.addrRegValue v r ρ + disp = disp := by
            rw [hval, if_neg hinvalid]
            exact BitVec.zero_add disp
          split
          next =>
              refine (hconst _ fun ρ => ?_).bind fun e he => .ret ⟨nofun, he⟩
              rw [hsum, BitVec.ofNat_toNat, BitVec.setWidth_eq]
          next hzero =>
              obtain rfl : disp = 0 := by simpa using hzero
              exact .ret ⟨fun h => h, hsum⟩

theorem getIndexExpr_yields (h : T.FetchedAddrReg v r x) (hr : r ≠ T.pin.regInvalid →
    T.pin.regSize r = 8)
    (scale : Nat) : Yields (body σ) exactly (T.getIndexExpr r scale x) fun y =>
      (x ≠ none → y ≠ none) ∧
        Summand (fun ρ => T.addrRegValue v r ρ * BitVec.ofNat 64 scale) y := by
  cases x with
  | some e =>
      obtain ⟨-, he⟩ := h
      unfold getIndexExpr
      simp only
      split
      next =>
          rw [hb, he.bits]
          refine Yields.bind (createConstant_expresses scale (by decide)) fun c hc => ?_
          exact (he.binary (k := .mul) nofun rfl hc).bind fun e' he' => .ret ⟨nofun, he'⟩
      next hone =>
          obtain rfl : scale = 1 := by simpa using hone
          exact .ret ⟨nofun, he.congr fun ρ => (BitVec.mul_one _).symm⟩
  | none =>
      have hval := addrRegValue_of_not_symbolic hv h hr
      unfold getIndexExpr
      simp only
      split
      next hvalid =>
          rw [hb]
          refine Yields.bind (createConstant_expresses _ (by decide)) fun e he => .ret ⟨nofun, ?_⟩
          refine he.congr fun ρ => ?_
          rw [hval, if_pos hvalid, BitVec.ofNat_mul]
          rfl
      next hinvalid =>
          refine .ret ⟨fun h => h, fun ρ => ?_⟩
          simp only
          rw [hval, if_neg hinvalid]
          exact BitVec.zero_mul

omit hv [DecidableEq Reg] in
theorem createAddrExpr_yields (hx : Summand u x) (hy : Summand w y) (hsome : x ≠ none ∨ y ≠ none) :
    Yields (body σ) exactly (T.createAddrExpr x y) (Expresses 64 fun ρ => u ρ + w ρ) := by
  cases x with
  | none =>
      cases y with
      | none => exact (hsome.elim (absurd rfl) (absurd rfl))
      | some e =>
          have he : Expresses 64 w e := hy
          refine .ret (he.congr fun ρ => ?_)
          rw [hx ρ]
          exact (BitVec.zero_add _).symm
  | some e =>
      have he : Expresses 64 u e := hx
      cases y with
      | none =>
          refine .ret (he.congr fun ρ => ?_)
          rw [hy ρ]
          exact (BitVec.add_zero _).symm
      | some e' =>
          unfold createAddrExpr
          rw [hb]
          exact he.binary (k := .add) nofun rfl hy

end Summands

/-! ### Addresses -/

section Address

theorem FetchedAddrReg.none_iff (h : T.FetchedAddrReg v r x) :
    x = none ↔ ∀ k ∈ T.addrRegPlaces r, ¬ Symbolic v k := by
  cases x with
  | none => exact iff_of_true rfl h
  | some e =>
      obtain ⟨⟨k, hk, hsym⟩, -⟩ := h
      exact iff_of_false nofun fun hnone => hnone k hk hsym

variable (hb : T.builder = chain)
include hb

theorem addrExpr_yields {input : Input} (hv : T.Consistent input v) (hm : m.Long T)
    (hx : T.FetchedAddrReg v m.base x) (hy : T.FetchedAddrReg v m.index y) :
    Yields (body σ) exactly (T.addrExpr m.base m.index m.disp m.scale x y) fun z =>
      (z = none ↔ x = none ∧ y = none) ∧ ∀ e, z = some e →
        Expresses 64 (m.effectiveAddress T v) e := by
  have hsum (hsome : ¬ (x = none ∧ y = none)) : Yields (body σ) exactly (do
      let eBase ← T.extendPart x
      let eIndex ← T.extendPart y
      let eBase ← T.getBaseExpr m.base m.disp eBase
      let eIndex ← T.getIndexExpr m.index m.scale eIndex
      let e ← T.createAddrExpr eBase eIndex
      return some e) fun z => (z = none ↔ x = none ∧ y = none) ∧
        ∀ e, z = some e → Expresses 64 (m.effectiveAddress T v) e := by
    refine (extendPart_yields hb hx).bind fun x' hx' => ?_
    refine (extendPart_yields hb hy).bind fun y' hy' => ?_
    rw [hx.none_iff, hy.none_iff, ← hx'.none_iff, ← hy'.none_iff] at hsome
    refine (getBaseExpr_yields hb hv hx' (hm _ (by simp)) m.disp).bind fun a ⟨ha, hbase⟩ => ?_
    refine (getIndexExpr_yields hb hv hy' (hm _ (by simp)) m.scale).bind fun b ⟨hb', hindex⟩ => ?_
    have hany : a ≠ none ∨ b ≠ none := (not_and_or.1 hsome).imp ha hb'
    refine (createAddrExpr_yields hb hbase hindex hany).bind fun e he => .ret ⟨?_, ?_⟩
    · rw [hx.none_iff, hy.none_iff, ← hx'.none_iff, ← hy'.none_iff]
      exact iff_of_false nofun hsome
    · rintro _ ⟨⟩
      exact he.congr fun ρ => add_right_comm _ _ _
  unfold addrExpr
  split
  next => exact .ret ⟨by simp, nofun⟩
  next hsome => exact hsum fun ⟨hx, hy⟩ => hsome hx hy

variable (hP : T.pin.Documented)
include hP

/-- What a register of an address is read as. -/
theorem getExprFromAddrReg_fetched (hs : s.WellFormed)
    (hr : r ≠ T.pin.regInvalid → T.pin.regSize r = 8) :
    Ensures (body σ) exactly (T.getExprFromAddrReg r) s fun x s' _ =>
      T.Aged s s' ∧ T.FetchedAddrReg (T.peek s) r x := by
  unfold getExprFromAddrReg
  split
  next hvalid =>
      have hplaces : T.addrRegPlaces r = (Operand.reg r).places T := if_pos hvalid
      have h8 := hr hvalid
      refine (get_carries hb hs hP (.reg r)).mono ?_
      rintro x s' _ ⟨hread, hx⟩
      refine ⟨hread.aged, ?_⟩
      have hnull := hread.none_iff
      rw [ReadsNull, if_neg (by omega)] at hnull
      cases x with
      | none =>
          intro k hk
          exact hnull.1 rfl k (hplaces ▸ hk)
      | some e =>
          have hsym : ¬ ∀ k ∈ (Operand.reg r).places T, ¬ Symbolic (T.peek s) k :=
            fun h => by cases hnull.2 h
          have he : Expresses ((Operand.reg r).size T * 8) ((Operand.reg r).bv T (T.peek s)) e :=
            hx.fetched
          push Not at hsym
          obtain ⟨k, hk, hsym⟩ := hsym
          refine ⟨⟨k, hplaces ▸ hk, hsym⟩,
            (he.setWidth (n := 64) (by rw [Operand.size, h8])).congr fun ρ => ?_⟩
          exact (if_pos hvalid).symm
  next hinvalid => exact .ret ⟨.refl hs, fun k hk => by simp [addrRegPlaces, hinvalid] at hk⟩

/-- **Effective addresses.** There is no expression if and only if neither the base nor the
index depends on the input; otherwise it has the value of the address. -/
theorem getAddrExpr_ensures (hs : s.WellFormed) (hv : T.Consistent σ.input (T.peek s))
    (hm : m.Long T) : Ensures (body σ) exactly (T.getAddrExpr m.base m.index m.disp m.scale) s
      fun x s' _ => T.Aged s s' ∧ (x = none ↔ ¬ m.SymbolicAddress T s) ∧
        ∀ e, x = some e → Expresses 64 (m.effectiveAddress T (T.peek s)) e := by
  refine Ensures.bind (getExprFromAddrReg_fetched hb hP hs (hm m.base (by simp))) ?_
  intro x s₁ _ ⟨h₁, hx⟩
  refine Ensures.bind (getExprFromAddrReg_fetched hb hP h₁.wellFormed (hm m.index (by simp))) ?_
  intro y s₂ _ ⟨h₂, hy⟩
  have hy := h₁.fades.fetchedAddrReg hv hy
  refine Ensures.lift (addrExpr_yields hb hv hm hx hy) fun z ⟨hnone, hsome⟩ =>
    ⟨h₁.trans h₂, ?_, hsome⟩
  rw [hnone, hx.none_iff, hy.none_iff, MemArg.SymbolicAddress, MemArg.places]
  simp only [List.mem_append, or_imp, forall_and, not_exists, not_and]

/-- **`LEA`.** The lowest bytes of the address are stored, or the destination is cleared. -/
theorem instrumentLea_achieves (hs : s.WellFormed) (hv : T.Consistent σ.input (T.peek s))
    (hm : m.Long T) (haddr : T.Addressed m) (hdst : T.pin.regSize dst ∈ [2, 4, 8])
    (htracked : T.Tracked dst) :
    Achieves (body σ) exactly (T.instrumentLeaRegMem dst m.base m.index m.disp m.scale) s
      fun _ s' _ => m.LoadedTo T s dst s' := by
  simp only [List.mem_cons, List.not_mem_nil, or_false] at hdst
  refine Achieves.bind ((getAddrExpr_returns hP hb hs haddr).achieves
    (getAddrExpr_ensures hb hP hs hv hm)) fun x s₁ _ ⟨h₁, hnone, hsome⟩ => ?_
  cases x with
  | none =>
      have hclear : Returns (body σ) exactly (T.setExprToReg dst none) s₁ :=
        set_none_returns (o := .reg dst) hP htracked
      refine (hclear.achieves ((T.setExprToReg_keepsEflags dst none s₁).and
        (setExprToReg_written hP dst none))).mono ?_
      intro _ s' _ ⟨heq, _, _, hwritten⟩
      refine ⟨s₁, h₁, heq.trans h₁.eflags,
        fun _ => ⟨fun _ k hk => ?_, fun k hk => ?_⟩, fun hsym => ?_⟩
      · exact hwritten.empty rfl k ((Operand.mem_dropped_iff hP (.reg dst) k).2 hk)
      · exact hwritten.same k (mt (Operand.mem_dropped_iff hP (.reg dst) k).1 hk)
      · exact absurd hsym (hnone.1 rfl)
  | some e =>
      have he := hsome e rfl
      refine ((setExprToReg_returns hP hb htracked he.isBV (by omega)).achieves
        (setExprToReg_puts_low hP hb he (by omega) (by omega))).mono ?_
      intro _ s' _ ⟨heq, hputs⟩
      refine ⟨s₁, h₁, heq.trans h₁.eflags, fun hnot => ?_, fun _ => hputs⟩
      exact nomatch hnone.2 hnot

/-- **Effective addresses.** For every base, index, scale and displacement and every shadow:
there is no expression if and only if neither the base nor the index depends on the input,
otherwise it has the value of the address for every input; and `LEA` stores its lowest bytes,
or clears the destination. -/
theorem getAddrExpr_lea (dst : Reg) (hs : s.WellFormed) (hv : T.Consistent σ.input (T.peek s))
    (hm : m.Long T) (haddr : T.Addressed m) (hdst : T.pin.regSize dst ∈ [2, 4, 8])
    (htracked : T.Tracked dst) :
    (Achieves (body σ) exactly (T.getAddrExpr m.base m.index m.disp m.scale) s fun x s' _ =>
      T.Aged s s' ∧ (x = none ↔ ¬ m.SymbolicAddress T s) ∧
        ∀ e, x = some e → e.IsBV 64 ∧ ∀ ρ, e.bv ρ 64 = m.effectiveAddress T (T.peek s) ρ) ∧
    Achieves (body σ) exactly (T.instrumentLeaRegMem dst m.base m.index m.disp m.scale) s
      fun _ s' _ => m.LoadedTo T s dst s' := by
  refine ⟨?_, instrumentLea_achieves hb hP hs hv hm haddr hdst htracked⟩
  refine ((getAddrExpr_returns hP hb hs haddr).achieves (getAddrExpr_ensures hb hP hs hv hm)).mono
    fun x s' _ ⟨h, hnone, hsome⟩ => ⟨h, hnone, fun e he => ?_⟩
  have he := hsome e he
  exact ⟨he.isBV, fun ρ => he.bv ρ trivial⟩

end Address

open X86Reg (process shadow)

/-- The operand `[RBX + RAX * scale + disp]`. -/
def rbxRax (scale : Nat) (disp : Addr) : MemArg X86Reg :=
  { base := .rbx, index := .rax, addr := 0, size := 8, disp, scale }

theorem rbxRax_long (scale : Nat) (disp : Addr) : (rbxRax scale disp).Long process := by
  intro r hr _
  obtain rfl | rfl : r = .rbx ∨ r = .rax := by simpa [rbxRax] using hr
  · rfl
  · rfl

theorem rbxRax_addressed (scale : Nat) (disp : Addr) : process.Addressed (rbxRax scale disp) :=
  have hreg (r : X86Reg) (hr : r = .rbx ∨ r = .rax) : process.AddrReg r := fun _ =>
    ⟨X86Reg.tracked (by rcases hr with rfl | rfl <;> decide),
      by rcases hr with rfl | rfl <;> decide⟩
  ⟨hreg .rbx (.inl rfl), hreg .rax (.inr rfl)⟩

/-- `LEA ECX, [RBX + RAX * 4 - 1]` with an input byte in `RAX`. -/
theorem getAddrExpr_lea_ecx : ∃ s' l w',
    Runs (body quietSession) (process.instrumentLeaRegMem .ecx .rbx .rax (-1) 4 (shadow [0]))
      (freshWorld 1) ((), s', l) w' ∧ process.peek s' (.reg .rcx 4) = none ∧
      process.Shows (process.peek s') (.reg .ecx) (fun _ => 5) (19 : BitVec 32) := by
  obtain ⟨-, h⟩ := getAddrExpr_lea (T := process) (σ := quietSession) rfl
    X86Reg.registers_documented .ecx (X86Reg.shadow_init_wellFormed [0])
    (X86Reg.shadow_consistent [0]) (rbxRax_long 4 (-1)) (rbxRax_addressed 4 (-1)) (by decide)
    (X86Reg.tracked (by decide))
  obtain ⟨_, s', l, w', hr, s₁, -, -, -, hstores⟩ :=
    exists_run (n := 40) (w := freshWorld 1) h (by decide +kernel)
  have hputs := hstores ⟨.reg .rax 0, by decide, .read 0, rfl, by decide⟩
  refine ⟨s', l, w', hr, hputs.upper _ (by decide), ?_⟩
  have hshows := hputs.shows fun _ => 5
  have haddr : (rbxRax 4 (-1)).effectiveAddress process (process.peek (shadow [0]))
      (fun _ => 5) = 19 := by
    decide +kernel
  rw [haddr] at hshows
  exact hshows

/-- `C(0, (Read 0) / 16) / 16` over 64 bits. -/
def longQuotient : Expr :=
  .binary 4 .udiv (.concat 2 (.constant 1 56 0) (.binary 0 .udiv (.read 0) (.constant 0 8 16)))
    (.constant 3 64 16)

/-- A shadow that has the quotient in `RAX`. -/
def quotientShadow : Shadow :=
  { shadow [] with
    regs := fun addr => if addr < 8
      then some (.extract (5 + addr) longQuotient (addr * 8) 8) else none }

theorem quotientShadow_regs {addr : Nat} {e : Expr} (h : quotientShadow.regs addr = some e) :
    addr < 8 ∧ e = .extract (5 + addr) longQuotient (addr * 8) 8 := by
  have h : (if addr < 8 then some _ else none) = some e := h
  split at h
  next hlt => exact ⟨hlt, (Option.some.inj h).symm⟩
  next => cases h

/-- Adding the zero in `RBX` evaluates the quotient again, as `255 / 0` over eight bits. -/
theorem getAddrExpr_not_lea : quotientShadow.WellFormed ∧
    process.Consistent quietSession.input (process.peek quotientShadow) ∧
    (rbxRax 1 0).Long process ∧
    ∃ e s' l w', Runs (body quietSession) (process.getAddrExpr .rbx .rax 0 1 quotientShadow)
      (freshWorld 20) (some e, s', l) w' ∧
      e.bv (fun _ => 255) 64 ≠ (rbxRax 1 0).effectiveAddress process (process.peek quotientShadow)
        fun _ => 255 := by
  refine ⟨⟨fun addr e he => ?_, fun addr e he => ?_⟩, fun k e he => ?_, rbxRax_long 1 0, ?_⟩
  · obtain ⟨hlt, rfl⟩ := quotientShadow_regs he
    have hquotient : longQuotient.IsBV 64 := ⟨by decide, rfl, rfl⟩
    refine ⟨?_, isBV_extract hquotient (by decide) (by omega) _⟩
    simp [Expr.Trimmed, Expr.Cut, longQuotient]
  · cases (X86Reg.onePage_peek addr).symm.trans he
  · obtain ⟨addr, he⟩ := X86Reg.exists_regs_of_peek rfl he
    obtain ⟨hlt, rfl⟩ := quotientShadow_regs he
    have hzero : longQuotient.value quietSession.input = 0 := by decide +kernel
    have hslice : Bits.slice 0 (addr * 8) 8 = 0 := by simp [Bits.slice]
    rw [value, hzero, hslice]
    cases k <;> rfl
  · have hp : ((process.getAddrExpr .rbx .rax 0 1 quotientShadow).run (exec (body quietSession) 40)
        (freshWorld 20)).map (fun x => x.1.1.map fun e => e.bv (fun _ => 255) 64) =
          some (some 255) := by
      decide +kernel
    obtain ⟨⟨⟨x, s', l⟩, w'⟩, hrun, hsome⟩ := Option.map_eq_some_iff.1 hp
    obtain ⟨e, rfl, hbv⟩ := Option.map_eq_some_iff.1 hsome
    refine ⟨e, s', l, w', ⟨40, hrun⟩, ?_⟩
    rw [hbv]
    decide +kernel

end Process

end Qsym
