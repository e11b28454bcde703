import Qsym.Instrument.Fetch

/-!
# Qsym.Instrument.Returning

The parts of handlers **return**. The tool stops on a register that it has no cells for or that
has a size without a case, on a part of an address that is too wide, and on a store to memory
that is not mapped. Apart from that the parts return, as long as no division is folded inexactly
on the way.
-/

namespace Qsym

open Procedure Qsym.Expr
open SymbolicExprBuilder (chain)

namespace Process

open Handler Stateful

variable {Reg : Type} [DecidableEq Reg] (T : Process Reg)

/-- A register that the tool has cells for, of a size that there is a case for. -/
structure Tracked (r : Reg) : Prop where
  hasCells : T.pin.regToRegAddr r ≠ none
  size : T.pin.regSize r ∈ [1, 2, 4, 8, 16, 32]

/-- A register of an address, or none. -/
def AddrReg (r : Reg) : Prop :=
  r ≠ T.pin.regInvalid → T.Tracked r ∧ T.pin.regSize r ≤ 8

/-- The registers of an address. -/
structure Addressed (m : MemArg Reg) : Prop where
  base : T.AddrReg m.base
  index : T.AddrReg m.index

/-- An operand that can be read. -/
def Readable : Operand Reg → Prop
  | .reg r => T.Tracked r
  | .mem _ _ => True

variable {T} {σ : Session} {ok : MethodCall → Prop} {α : Type} {s : Shadow} {r : Reg}

/-! ### Cells -/

omit [DecidableEq Reg] in
theorem onRegs_returns {f : RegExprs → Build (α × RegExprs)} {P : α × RegExprs → Prop}
    (h : Builds σ ok (f s.regs) P) : Returns (body σ) ok (onRegs f : Handler Reg α) s :=
  Total.bind h fun _ _ => .ret trivial

omit [DecidableEq Reg] in
theorem onMemory_returns {f : Memory → Build (α × Memory)} {P : α × Memory → Prop}
    (h : Builds σ ok (f s.memory) P) : Returns (body σ) ok (onMemory f : Handler Reg α) s :=
  Total.bind h fun _ _ => .ret trivial

theorem Tracked.exists_addr (h : T.Tracked r) : ∃ addr, T.pin.regToRegAddr r = some addr :=
  Option.ne_none_iff_exists'.1 h.hasCells

omit [DecidableEq Reg] in
theorem size_cases {n : Nat} (h : n ∈ [1, 2, 4, 8, 16, 32]) :
    n = 1 ∨ n = 2 ∨ n = 4 ∨ n = 8 ∨ n = 16 ∨ n = 32 := by
  simpa using h

section Parts

variable (hP : T.pin.Documented) (hb : T.builder = chain) (hs : s.WellFormed)

include hP hb hs

theorem getExprFromReg_returns (hr : T.Tracked r) : Returns (body σ) ok (T.getExprFromReg r) s := by
  obtain ⟨addr, haddr⟩ := hr.exists_addr
  have hcells (h1 : T.pin.regSize r ≠ 1) :
      Builds σ ok (T.pin.getExprFromRegAddr chain s.regs T.context addr (T.pin.regSize r)) _ :=
    Pin.getExprFromRegAddr_builds hP (Pin.shadowsRegs_own hs.regs)
      (Pin.own_consistentView T.pin.toPin s.regs T.context r) h1 haddr
  have hsize := size_cases hr.size
  have hread : Builds σ ok (T.pin.getExprFromReg T.builder s.regs T.context r) fun _ => True := by
    unfold Pin.getExprFromReg
    rw [haddr, hb]
    simp only
    split
    next => exact .ret trivial
    next h2 => exact (hcells (by omega)).mono fun _ _ => trivial
    next h4 => exact (hcells (by omega)).mono fun _ _ => trivial
    next h8 => exact (hcells (by omega)).mono fun _ _ => trivial
    next h16 => exact (hcells (by omega)).mono fun _ _ => trivial
    next h32 => exact (hcells (by omega)).mono fun _ _ => trivial
    next => grind
  exact onRegs_returns hread

omit hP [DecidableEq Reg] in
theorem getExprFromMem_returns (addr : Addr) (size : Nat) :
    Returns (body σ) ok (T.getExprFromMem addr size) s := by
  have hcells : Builds σ ok (s.memory.getExprFromMem T.builder addr T.memory size) _ :=
    hb ▸ Memory.cells.getExprs_builds hs.memory.shadows
      (Cells.own_consistentAt s.memory T.memory (Memory.addresses addr size))
  exact onMemory_returns hcells

theorem getExprFromAddrReg_returns (hr : T.AddrReg r) :
    Returns (body σ) ok (T.getExprFromAddrReg r) s := by
  unfold getExprFromAddrReg
  split
  next hvalid => exact getExprFromReg_returns hP hb hs (hr hvalid).1
  next => exact .ret none

theorem get_returns {o : Operand Reg} (ho : T.Readable o) : Returns (body σ) ok (o.get T) s := by
  cases o with
  | reg r => exact getExprFromReg_returns hP hb hs ho
  | mem addr size => exact getExprFromMem_returns hb hs addr size

end Parts

/-! ### Addresses -/

omit [DecidableEq Reg] in
/-- A part of an address, if there is one, has the width of addresses. -/
def IsPart (x : Option Expr) : Prop :=
  ∀ e, x = some e → ∃ u, Expresses addrBits u e

section Addresses

variable (hb : T.builder = chain) {x y : Option Expr}
include hb

omit [DecidableEq Reg] in
theorem extendPart_builds (hx : ∀ e, x = some e → ∃ n ≤ addrBits, ∃ u, Expresses n u e) :
    Builds σ exactly (T.extendPart x) fun y => IsPart y ∧ (x ≠ none → y ≠ none) := by
  cases x with
  | none => exact .ret ⟨nofun, fun h => absurd rfl h⟩
  | some e =>
      obtain ⟨n, hn, u, he⟩ := hx e rfl
      have hwide : e.bits ≤ addrBits := he.bits.trans_le hn
      unfold extendPart
      simp only [hb, if_pos hwide]
      refine Total.bind (he.ext_builds .zext hn) fun e' he' => .ret ⟨?_, nofun⟩
      rintro _ ⟨⟩
      exact ⟨_, he'⟩

theorem getBaseExpr_builds (hx : IsPart x) (disp : Addr) :
    Builds σ exactly (T.getBaseExpr r disp x) fun y => IsPart y ∧ (x ≠ none → y ≠ none) := by
  have hconst (n : Nat) : Builds σ exactly (do
      let e ← T.builder.createConstant n addrBits
      return some e) fun y => IsPart y ∧ (x ≠ none → y ≠ none) := by
    rw [hb]
    refine Total.bind (Expresses.createConstant_builds n (by decide)) fun e he => .ret ⟨?_, nofun⟩
    rintro _ ⟨⟩
    exact ⟨_, he⟩
  cases x with
  | none =>
      unfold getBaseExpr
      simp only
      split
      next => exact hconst _
      next =>
          split
          next => exact hconst _
          next => exact .ret ⟨nofun, fun h => absurd rfl h⟩
  | some e =>
      obtain ⟨u, he⟩ := hx e rfl
      unfold getBaseExpr
      simp only
      split
      next =>
          rw [he.bits, hb]
          refine Total.bind (Expresses.createConstant_builds _ (by decide)) fun d hd => ?_
          refine Total.bind (he.binary_builds (k := .add) nofun rfl hd) fun e' he' =>
            .ret ⟨?_, nofun⟩
          rintro _ ⟨⟩
          exact ⟨_, he'⟩
      next => exact .ret ⟨hx, id⟩

theorem getIndexExpr_builds (hx : IsPart x) (scale : Nat) :
    Builds σ exactly (T.getIndexExpr r scale x) fun y => IsPart y ∧ (x ≠ none → y ≠ none) := by
  cases x with
  | none =>
      unfold getIndexExpr
      simp only
      split
      next =>
          rw [hb]
          refine Total.bind (Expresses.createConstant_builds _ (by decide)) fun e he =>
            .ret ⟨?_, nofun⟩
          rintro _ ⟨⟩
          exact ⟨_, he⟩
      next => exact .ret ⟨nofun, fun h => absurd rfl h⟩
  | some e =>
      obtain ⟨u, he⟩ := hx e rfl
      unfold getIndexExpr
      simp only
      split
      next =>
          rw [he.bits, hb]
          refine Total.bind (Expresses.createConstant_builds _ (by decide)) fun c hc => ?_
          refine Total.bind (he.binary_builds (k := .mul) nofun rfl hc) fun e' he' =>
            .ret ⟨?_, nofun⟩
          rintro _ ⟨⟩
          exact ⟨_, he'⟩
      next => exact .ret ⟨hx, id⟩

omit [DecidableEq Reg] in
theorem createAddrExpr_builds (hx : IsPart x) (hy : IsPart y) (hsome : x ≠ none ∨ y ≠ none) :
    Builds σ exactly (T.createAddrExpr x y) fun _ => True := by
  cases x with
  | none =>
      cases y with
      | none => exact absurd hsome (by simp)
      | some e => exact .ret trivial
  | some l =>
      cases y with
      | none => exact .ret trivial
      | some r =>
          obtain ⟨u, hl⟩ := hx l rfl
          obtain ⟨w, hr⟩ := hy r rfl
          unfold createAddrExpr
          simp only [hb]
          exact (hl.binary_builds (k := .add) nofun rfl hr).mono fun _ _ => trivial

theorem addrExpr_builds {base index : Reg} (disp : Addr) (scale : Nat)
    (hx : ∀ e, x = some e → ∃ n ≤ addrBits, ∃ u, Expresses n u e)
    (hy : ∀ e, y = some e → ∃ n ≤ addrBits, ∃ u, Expresses n u e) :
    Builds σ exactly (T.addrExpr base index disp scale x y) fun _ => True := by
  have hall (hsome : x ≠ none ∨ y ≠ none) : Builds σ exactly (do
      let eBase ← T.extendPart x
      let eIndex ← T.extendPart y
      let eBase ← T.getBaseExpr base disp eBase
      let eIndex ← T.getIndexExpr index scale eIndex
      let e ← T.createAddrExpr eBase eIndex
      return some e) fun _ => True := by
    refine Total.bind (extendPart_builds hb hx) fun x₁ ⟨hx₁, hx₁some⟩ => ?_
    refine Total.bind (extendPart_builds hb hy) fun y₁ ⟨hy₁, hy₁some⟩ => ?_
    refine Total.bind (getBaseExpr_builds hb hx₁ disp) fun x₂ ⟨hx₂, hx₂some⟩ => ?_
    refine Total.bind (getIndexExpr_builds hb hy₁ scale) fun y₂ ⟨hy₂, hy₂some⟩ => ?_
    have hsome₂ : x₂ ≠ none ∨ y₂ ≠ none :=
      hsome.imp (fun h => hx₂some (hx₁some h)) fun h => hy₂some (hy₁some h)
    exact Total.bind (createAddrExpr_builds hb hx₂ hy₂ hsome₂) fun _ _ => .ret trivial
  unfold addrExpr
  split
  next => exact .ret trivial
  next hnot =>
      refine hall ?_
      cases x with
      | some e => exact .inl nofun
      | none => exact .inr fun hy => hnot rfl hy

end Addresses

section Operands

variable (hP : T.pin.Documented) (hb : T.builder = chain) (hs : s.WellFormed)

include hP hb hs

/-- What is read from a register of an address. -/
theorem getExprFromAddrReg_part (hr : T.AddrReg r) :
    Ensures (body σ) ok (T.getExprFromAddrReg r) s fun x s' _ => s'.WellFormed ∧
      ∀ e, x = some e → ∃ n ≤ addrBits, ∃ u, Expresses n u e := by
  unfold getExprFromAddrReg
  split
  next hvalid =>
      refine (get_carries hb hs hP (.reg r)).mono fun x s' _ ⟨hread, hx⟩ => ⟨hread.wellFormed, ?_⟩
      rintro e rfl
      have hsize := (hr hvalid).2
      have he : Expresses ((Operand.reg r).size T * 8) _ e := hx.fetched
      exact ⟨_, Nat.mul_le_mul_right 8 hsize, _, he⟩
  next => exact .ret ⟨hs, nofun⟩

theorem getAddrExpr_returns {m : MemArg Reg} (hm : T.Addressed m) :
    Returns (body σ) exactly (T.getAddrExpr m.base m.index m.disp m.scale) s := by
  refine Returns.bind (getExprFromAddrReg_returns hP hb hs hm.base)
    (getExprFromAddrReg_part hP hb hs hm.base) fun x s₁ _ ⟨h₁, hx⟩ => ?_
  refine Returns.bind (getExprFromAddrReg_returns hP hb h₁ hm.index)
    (getExprFromAddrReg_part hP hb h₁ hm.index) fun y s₂ _ ⟨_, hy⟩ => ?_
  exact Returns.lift (addrExpr_builds hb m.disp m.scale hx hy)

theorem makeAddrConcrete_returns {m : MemArg Reg} (hm : T.Addressed m) :
    Returns (body σ) exactly (T.makeAddrConcrete m) s := by
  refine Returns.bind (getAddrExpr_returns hP hb hs hm) (P := fun _ _ _ => True)
    (fun _ _ _ _ _ => trivial) fun x s' _ _ => ?_
  cases x with
  | none => exact .ret ()
  | some e => exact .tell _

theorem getExprFromMemSrc_returns {m : MemArg Reg} (hm : T.Addressed m) :
    Returns (body σ) exactly (T.getExprFromMemSrc m) s :=
  Returns.bind (makeAddrConcrete_returns hP hb hs hm) (makeAddrConcrete_aged hP hb hs m)
    fun _ _ _ h => getExprFromMem_returns hb h.wellFormed m.addr m.size

omit hP hb hs [DecidableEq Reg] in
theorem fixPair_builds {f g : Option Expr → Build Expr} {x y : Option Expr}
    (hf : ∀ x, Builds σ ok (f x) fun _ => True) (hg : ∀ x, Builds σ ok (g x) fun _ => True) :
    Builds σ ok (fixPair x y f g) fun _ => True := by
  have hboth : Builds σ ok (do
      let dst ← f x
      let src ← g y
      return some (dst, src)) fun _ => True :=
    Total.bind (hf x) fun _ _ => Total.bind (hg y) fun _ _ => .ret trivial
  unfold fixPair
  split
  next => exact .ret trivial
  next => exact hboth

omit hs [DecidableEq Reg] in
theorem fixRegExpr_builds (r : Reg) (x : Option Expr) :
    Builds σ ok (T.fixRegExpr x r) fun _ => True := by
  cases x with
  | some e => exact .ret trivial
  | none =>
      have hpos := hP.size_pos r
      unfold fixRegExpr getRegValueExpr
      rw [hb]
      exact (Expresses.createConstant_builds _ (by omega)).mono fun _ _ => trivial

omit hP hs [DecidableEq Reg] in
theorem fixMemExpr_builds (addr : Addr) {n : Nat} (hn : 0 < n) (x : Option Expr) :
    Builds σ ok (T.fixMemExpr x addr n) fun _ => True := by
  cases x with
  | some e => exact .ret trivial
  | none =>
      unfold fixMemExpr getMemValueExpr
      rw [hb]
      exact (Expresses.createConstant_builds _ (by omega)).mono fun _ _ => trivial

theorem getExprFromRegReg_returns {dst src : Reg} (hdst : T.Tracked dst) (hsrc : T.Tracked src) :
    Returns (body σ) ok (T.getExprFromRegReg dst src) s := by
  refine Returns.bind (getExprFromReg_returns hP hb hs hdst) (getExprFromReg_reads hP hb hs dst)
    fun x s₁ _ ⟨_, h₁⟩ => ?_
  refine Returns.bind (getExprFromReg_returns hP hb h₁.wellFormed hsrc)
    (getExprFromReg_reads hP hb h₁.wellFormed src) fun y s₂ _ _ => ?_
  exact Returns.lift (fixPair_builds (fixRegExpr_builds hP hb dst) (fixRegExpr_builds hP hb src))

theorem getExprFromRegMem_returns {dst : Reg} {m : MemArg Reg} (hdst : T.Tracked dst)
    (hm : T.Addressed m) (hsize : 0 < m.size) :
    Returns (body σ) exactly (T.getExprFromRegMem dst m) s := by
  refine Returns.bind (getExprFromReg_returns hP hb hs hdst) (getExprFromReg_reads hP hb hs dst)
    fun x s₁ _ ⟨_, h₁⟩ => ?_
  refine Returns.bind (P := fun _ _ _ => True) (getExprFromMemSrc_returns hP hb h₁.wellFormed hm)
    (fun _ _ _ _ _ => trivial) fun y s₂ _ _ => ?_
  exact Returns.lift
    (fixPair_builds (fixRegExpr_builds hP hb dst) (fixMemExpr_builds hb m.addr hsize))

omit hP hb hs [DecidableEq Reg] in
/-- Two operands one after the other. -/
theorem pair_returns {p q : Handler Reg (Option Expr)} {f g : Option Expr → Build Expr}
    (hp : Returns (body σ) exactly p s)
    (hwell : Ensures (body σ) exactly p s fun _ s' _ => s'.WellFormed)
    (hq : ∀ s₁ : Shadow, s₁.WellFormed → Returns (body σ) exactly q s₁)
    (hf : ∀ x, Builds σ exactly (f x) fun _ => True)
    (hg : ∀ x, Builds σ exactly (g x) fun _ => True) :
    Returns (body σ) exactly (do
      let x ← p
      let y ← q
      (fixPair x y f g : Build _)) s := by
  refine Returns.bind hp hwell fun x s₁ _ h₁ => ?_
  refine Returns.bind (P := fun _ _ _ => True) (hq s₁ h₁) (fun _ _ _ _ _ => trivial)
    fun y s₂ _ _ => ?_
  exact Returns.lift (fixPair_builds hf hg)

omit hP in
/-- An operand and an immediate. -/
theorem imm_returns {p : Handler Reg (Option Expr)} {a : Operand Reg}
    (hp : Returns (body σ) exactly p s)
    (hgets : Gets σ T p a) (ha : 0 < a.size T) (imm : Addr) (hv : T.Consistent σ.input (T.peek s)) :
    Returns (body σ) exactly (do
      match ← p with
      | none => return none
      | some eDst => do
          let eSrc ← T.fixImmExpr none imm eDst.bits
          return some (eDst, eSrc)) s := by
  refine Returns.bind hp (hgets s hs hv) fun x s₁ _ ⟨_, hx, _⟩ => ?_
  cases x with
  | none => exact .ret none
  | some e =>
      have he : Expresses (a.size T * 8) (a.bv T (T.peek s)) e := hx
      have himm : Builds σ exactly (T.fixImmExpr none imm e.bits) fun _ => True := by
        rw [he.bits, fixImmExpr, hb]
        exact (Expresses.createConstant_builds _ (by omega)).mono fun _ _ => trivial
      exact Returns.lift_bind himm fun _ _ => .ret _

theorem getExprFromMemReg_returns {m : MemArg Reg} {src : Reg} (hm : T.Addressed m)
    (hsize : 0 < m.size) (hsrc : T.Tracked src) :
    Returns (body σ) exactly (T.getExprFromMemReg m src) s := by
  refine Returns.bind (makeAddrConcrete_returns hP hb hs hm) (makeAddrConcrete_aged hP hb hs m)
    fun _ s₁ _ h₁ => ?_
  refine pair_returns (getExprFromMem_returns hb h₁.wellFormed m.addr m.size) ?_
    (fun s₂ h₂ => getExprFromReg_returns hP hb h₂ hsrc) (fixMemExpr_builds hb m.addr hsize)
    (fixRegExpr_builds hP hb src)
  exact (getExprFromMem_reads hb h₁.wellFormed m.addr m.size).mono fun _ _ _ h => h.2.wellFormed

theorem getExprFromRegImm_returns {dst : Reg} (hdst : T.Tracked dst) (imm : Addr)
    (hv : T.Consistent σ.input (T.peek s)) :
    Returns (body σ) exactly (T.getExprFromRegImm dst imm) s :=
  imm_returns hb hs (getExprFromReg_returns hP hb hs hdst) (get_gets hP hb (.reg dst))
    (hP.size_pos dst) imm hv

theorem getExprFromMemImm_returns {m : MemArg Reg} (hm : T.Addressed m) (hsize : 0 < m.size)
    (imm : Addr) (hv : T.Consistent σ.input (T.peek s)) :
    Returns (body σ) exactly (T.getExprFromMemImm m imm) s := by
  refine Returns.bind (makeAddrConcrete_returns hP hb hs hm) (makeAddrConcrete_aged hP hb hs m)
    fun _ s₁ _ h₁ => ?_
  exact imm_returns hb h₁.wellFormed (getExprFromMem_returns hb h₁.wellFormed m.addr m.size)
    (get_gets hP hb (.mem m.addr m.size)) hsize imm (h₁.fades.consistent hv)

omit hP hs [DecidableEq Reg] in
/-- An immediate after the operands. -/
theorem withImm_returns {p : Handler Reg (Option (Expr × Expr))} (hp : Returns (body σ) exactly p s)
    (imm : Addr) {n : Nat} (hn : 0 < n) :
    Returns (body σ) exactly (do
      let pair ← p
      (T.withImm pair imm n : Build _)) s := by
  refine Returns.bind (P := fun _ _ _ => True) hp (fun _ _ _ _ _ => trivial) fun pair s₁ _ _ => ?_
  have himm : Builds σ exactly (T.fixImmExpr none imm n) fun _ => True := by
    rw [fixImmExpr, hb]
    exact (Expresses.createConstant_builds _ hn).mono fun _ _ => trivial
  cases pair with
  | none => exact Returns.lift (P := fun _ => True) (.ret trivial)
  | some x => exact Returns.lift (P := fun _ => True) (Total.bind himm fun _ _ => .ret trivial)

theorem getExprFromRegRegImm_returns {dst src : Reg} (hdst : T.Tracked dst) (hsrc : T.Tracked src)
    (imm : Addr) : Returns (body σ) exactly (T.getExprFromRegRegImm dst src imm) s := by
  have hpos := hP.size_pos dst
  exact withImm_returns hb (getExprFromRegReg_returns hP hb hs hdst hsrc) imm (by omega)

theorem getExprFromMemRegImm_returns {m : MemArg Reg} {src : Reg} (hm : T.Addressed m)
    (hsize : 0 < m.size) (hsrc : T.Tracked src) (imm : Addr) :
    Returns (body σ) exactly (T.getExprFromMemRegImm m src imm) s :=
  withImm_returns hb (getExprFromMemReg_returns hP hb hs hm hsize hsrc) imm (by omega)

omit hP hb hs [DecidableEq Reg] in
theorem fixThird_builds {f g h : Option Expr → Build Expr} {pair : Option (Expr × Expr)}
    {third : Option Expr} (hf : ∀ x, Builds σ ok (f x) fun _ => True)
    (hg : ∀ x, Builds σ ok (g x) fun _ => True) (hh : Builds σ ok (h third) fun _ => True) :
    Builds σ ok (fixThird pair third f g h) fun _ => True := by
  have hall : Builds σ ok (do
      let dst ← f (pair.map Prod.fst)
      let src ← g (pair.map Prod.snd)
      let third ← h third
      return some (dst, src, third)) fun _ => True :=
    Total.bind (hf _) fun _ _ => Total.bind (hg _) fun _ _ => Total.bind hh fun _ _ => .ret trivial
  unfold fixThird
  split
  next => exact .ret trivial
  next => exact hall

/-- A third operand, which is a register, comes before the other two. -/
theorem third_returns {q : Handler Reg (Option (Expr × Expr))} {f g : Option Expr → Build Expr}
    {r : Reg} (hr : T.Tracked r) (hq : ∀ s₁ : Shadow, s₁.WellFormed → Returns (body σ) exactly q s₁)
    (hf : ∀ x, Builds σ exactly (f x) fun _ => True)
    (hg : ∀ x, Builds σ exactly (g x) fun _ => True) :
    Returns (body σ) exactly (do
      let z ← T.getExprFromReg r
      let pair ← q
      (fixThird pair z f g (T.fixRegExpr · r) : Build _)) s := by
  refine Returns.bind (getExprFromReg_returns hP hb hs hr) (getExprFromReg_reads hP hb hs r)
    fun z s₁ _ ⟨_, h₁⟩ => ?_
  refine Returns.bind (P := fun _ _ _ => True) (hq s₁ h₁.wellFormed) (fun _ _ _ _ _ => trivial)
    fun pair s₂ _ _ => ?_
  exact Returns.lift (fixThird_builds hf hg (fixRegExpr_builds hP hb r z))

theorem getExprFromRegRegReg_returns {dst src1 src2 : Reg} (hdst : T.Tracked dst)
    (hsrc1 : T.Tracked src1) (hsrc2 : T.Tracked src2) :
    Returns (body σ) exactly (T.getExprFromRegRegReg dst src1 src2) s :=
  third_returns hP hb hs hsrc2 (fun _ h₁ => getExprFromRegReg_returns hP hb h₁ hdst hsrc1)
    (fixRegExpr_builds hP hb dst) (fixRegExpr_builds hP hb src1)

theorem getExprFromMemRegReg_returns {m : MemArg Reg} {src1 src2 : Reg} (hm : T.Addressed m)
    (hsize : 0 < m.size) (hsrc1 : T.Tracked src1) (hsrc2 : T.Tracked src2) :
    Returns (body σ) exactly (T.getExprFromMemRegReg m src1 src2) s :=
  third_returns hP hb hs hsrc2 (fun _ h₁ => getExprFromMemReg_returns hP hb h₁ hm hsize hsrc1)
    (fixMemExpr_builds hb m.addr hsize) (fixRegExpr_builds hP hb src1)

end Operands

/-! ### What is written -/

section Writes

variable (hP : T.pin.Documented) (hb : T.builder = chain)

omit [DecidableEq Reg] in
/-- A method that only changes the registers. -/
theorem onRegs_unit_returns {f : RegExprs → Build RegExprs}
    (h : Builds σ ok (f s.regs) fun _ => True) :
    Returns (body σ) ok (onRegs (fun s => do let s ← f s; return ((), s)) : Handler Reg Unit) s :=
  onRegs_returns (P := fun _ => True) (Total.bind h fun _ _ => .ret trivial)

omit [DecidableEq Reg] in
/-- A method that only changes the memory. -/
theorem onMemory_unit_returns {f : Memory → Build Memory}
    (h : Builds σ ok (f s.memory) fun _ => True) :
    Returns (body σ) ok (onMemory (fun s => do let s ← f s; return ((), s)) : Handler Reg Unit) s :=
  onMemory_returns (P := fun _ => True) (Total.bind h fun _ _ => .ret trivial)

theorem clearExprFromReg_builds {regs : RegExprs} {off : Nat} {size : Option Nat}
    (hr : T.pin.regToRegAddr r ≠ none) :
    Builds σ ok (T.pin.clearExprFromReg regs r off size) fun _ => True := by
  obtain ⟨addr, haddr⟩ := Option.ne_none_iff_exists'.1 hr
  unfold Pin.clearExprFromReg
  rw [haddr]
  simp only
  split
  next => exact (Cells.clearExpr_builds _ _).mono fun _ _ => trivial
  next => exact (Cells.clearExprs_builds _ _).mono fun _ _ => trivial

theorem clearExprFromRegPart_returns (hr : T.Tracked r) (off : Nat) (size : Option Nat) :
    Returns (body σ) ok (T.clearExprFromRegPart r off size) s :=
  onRegs_unit_returns (f := fun s => T.pin.clearExprFromReg s r off size)
    (clearExprFromReg_builds hr.hasCells)

theorem clearExprFromReg_returns (hr : T.Tracked r) :
    Returns (body σ) ok (T.clearExprFromReg r) s :=
  clearExprFromRegPart_returns hr 0 none

omit [DecidableEq Reg] in
theorem clearExprFromMem_returns (addr : Addr) (size : Nat) :
    Returns (body σ) ok (clearExprFromMem addr size : Handler Reg Unit) s :=
  onMemory_unit_returns ((Cells.clearExprs_builds _ _).mono fun _ _ => trivial)

include hP in
theorem zeroExtend_builds (hr : T.Tracked r) {regs : RegExprs} :
    Builds σ ok (T.pin.zeroExtend regs r) fun _ => True := by
  obtain ⟨addr, haddr⟩ := hr.exists_addr
  obtain ⟨base, hbase, -⟩ := Pin.regToRegAddr_eq_some haddr
  have hfull : T.pin.regToRegAddr (T.pin.regFullRegName r) ≠ none := by
    rw [Pin.regToRegAddr, hP.full_full, hbase]
    nofun
  have hupper (i n : Nat) (regs : RegExprs) :
      Builds σ ok (T.pin.clearUpperHalf (T.pin.regFullRegName r) regs i n) fun _ => True := by
    induction n generalizing i regs with
    | zero => exact .ret trivial
    | succ n ih => exact Total.bind (clearExprFromReg_builds hfull) fun regs' _ => ih (i + 1) regs'
  unfold Pin.zeroExtend
  split
  next => exact hupper 4 4 regs
  next => exact .ret trivial

omit [DecidableEq Reg] in
/-- The cells of the registers may be written. -/
theorem regs_poke (regs : RegExprs) (a : Nat) (x : Option Expr) :
    ∃ regs', RegExprs.cells.poke regs a x = some regs' ∧ True :=
  ⟨_, rfl, trivial⟩

include hP hb in
theorem setExprToReg_returns (hr : T.Tracked r) {n : Nat} {e : Expr} (he : e.IsBV n)
    (hn : T.pin.regSize r * 8 ≤ n) :
    Returns (body σ) exactly (T.setExprToReg r (some e)) s := by
  obtain ⟨addr, haddr⟩ := hr.exists_addr
  have hsize := size_cases hr.size
  have hbytes (regs : RegExprs) : Builds σ exactly (RegExprs.cells.setExprs T.builder regs
      (Pin.regAddresses addr (T.pin.regSize r)) (some e)) fun _ => True := by
    have hlength : (0 + (Pin.regAddresses addr (T.pin.regSize r)).length) * 8 ≤ n := by
      simpa [Pin.regAddresses] using hn
    rw [hb]
    exact Cells.setBytes_returns he hlength (fun regs _ a _ x => regs_poke regs a x) trivial
  have hset : Builds σ exactly (T.pin.setExprToReg T.builder s.regs r (some e)) fun _ => True := by
    unfold Pin.setExprToReg
    refine Total.bind (zeroExtend_builds hP hr) fun regs _ => ?_
    rw [haddr]
    simp only
    split
    next => exact Cells.setExpr_returns (fun regs _ x => regs_poke regs addr x) trivial (some e)
    next => exact hbytes regs
    next => exact hbytes regs
    next => exact hbytes regs
    next => exact hbytes regs
    next => exact hbytes regs
    next => grind
  exact onRegs_unit_returns (f := fun s => T.pin.setExprToReg T.builder s r (some e)) hset

/-- The addresses have pages that may be written. -/
def Mapped (mem : Memory) (addr : Addr) (size : Nat) : Prop :=
  ∀ a ∈ Memory.addresses addr size, mem.getPage a ≠ none

omit [DecidableEq Reg] in
theorem Mapped.of_samePages {mem mem' : Memory} {addr : Addr} {size : Nat}
    (h : Mapped mem addr size)
    (hpages : mem.SamePages mem') : Mapped mem' addr size :=
  fun a ha => mt (hpages a).1 (h a ha)

omit [DecidableEq Reg] in
/-- A store to one address leaves the pages of the others. -/
theorem Mapped.poke {mem : Memory} {addr a : Addr} {size : Nat} (h : Mapped mem addr size)
    (ha : a ∈ Memory.addresses addr size) (x : Option Expr) :
    ∃ mem', Memory.cells.poke mem a x = some mem' ∧ Mapped mem' addr size := by
  obtain ⟨page, hpage⟩ := Option.ne_none_iff_exists'.1 (h a ha)
  obtain ⟨mem', hpoke⟩ : ∃ mem', mem.poke a x = some mem' := ⟨_, by rw [Memory.poke, hpage]⟩
  exact ⟨mem', hpoke, h.of_samePages ((Memory.SamePages.refl mem).poke hpoke)⟩

omit [DecidableEq Reg] in
include hb in
theorem setExprToMem_returns {addr : Addr} {size : Nat} (hmapped : Mapped s.memory addr size)
    {e : Expr} (he : e.IsBV (size * 8)) :
    Returns (body σ) exactly (T.setExprToMem addr size (some e)) s := by
  have hlength : (0 + (Memory.addresses addr size).length) * 8 ≤ size * 8 := by
    simp [Memory.addresses]
  have hset : Builds σ exactly (s.memory.setExprToMem T.builder addr size (some e))
      (Mapped · addr size) := by
    rw [hb]
    exact Cells.setBytes_returns he hlength (fun mem h a ha x => h.poke ha x) hmapped
  exact onMemory_unit_returns (f := fun mem => mem.setExprToMem T.builder addr size (some e))
    (hset.mono fun _ _ => trivial)

variable (T) in
/-- An operand that an expression can be put into. -/
def Writable (s : Shadow) : Operand Reg → Prop
  | .reg r => T.Tracked r
  | .mem addr size => Mapped s.memory addr size

theorem Writable.readable {o : Operand Reg} (h : T.Writable s o) : T.Readable o := by
  cases o with
  | reg r => exact h
  | mem addr size => trivial

theorem Writable.of_samePages {s' : Shadow} {o : Operand Reg} (h : T.Writable s o)
    (hpages : s.memory.SamePages s'.memory) : T.Writable s' o := by
  cases o with
  | reg r => exact h
  | mem addr size => exact Mapped.of_samePages h hpages

include hP hb in
theorem set_returns {o : Operand Reg} (ho : T.Writable s o) {e : Expr}
    (he : e.IsBV (o.size T * 8)) :
    Returns (body σ) exactly (o.set T (some e)) s := by
  cases o with
  | reg r => exact setExprToReg_returns hP hb ho he le_rfl
  | mem addr size => exact setExprToMem_returns hb ho he

include hP in
/-- Nothing is put into an operand. -/
theorem set_none_returns {o : Operand Reg} (ho : T.Readable o) :
    Returns (body σ) ok (o.set T none) s := by
  cases o with
  | mem addr size =>
      exact onMemory_unit_returns (f := fun mem => mem.setExprToMem T.builder addr size none)
        ((Cells.clearExprs_builds _ _).mono fun _ _ => trivial)
  | reg r =>
      have hr : T.Tracked r := ho
      obtain ⟨addr, haddr⟩ := hr.exists_addr
      have hsize := size_cases hr.size
      have hbytes (regs : RegExprs) (as : List Nat) :
          Builds σ ok (RegExprs.cells.setExprs T.builder regs as none) fun _ => True :=
        (Cells.clearExprs_builds _ _).mono fun _ _ => trivial
      have hset : Builds σ ok (T.pin.setExprToReg T.builder s.regs r none) fun _ => True := by
        unfold Pin.setExprToReg
        refine Total.bind (zeroExtend_builds hP hr) fun regs _ => ?_
        rw [haddr]
        simp only
        split
        next => exact Cells.setExpr_returns (fun regs _ x => regs_poke regs addr x) trivial none
        next => exact hbytes regs _
        next => exact hbytes regs _
        next => exact hbytes regs _
        next => exact hbytes regs _
        next => exact hbytes regs _
        next => grind
      exact onRegs_unit_returns (f := fun s => T.pin.setExprToReg T.builder s r none) hset

include hP hb in
/-- What came of an operand of the same size is put into another one. -/
theorem set_fits_returns {o a : Operand Reg} (ho : T.Writable s o) (hsize : a.size T = o.size T)
    {x : Option Expr} (hx : T.Fits a x) : Returns (body σ) exactly (o.set T x) s := by
  cases x with
  | none => exact set_none_returns hP ho.readable
  | some e => exact set_returns hP hb ho (hsize ▸ (hx e rfl).2)

/-- What is put into an operand adds no page. -/
theorem set_pages (o : Operand Reg) (x : Option Expr) : Ensures (body σ) ok (o.set T x) s
    fun _ s' _ => s.memory.SamePages s'.memory := by
  cases o with
  | reg r =>
      refine (onRegs_unit (f := fun s => T.pin.setExprToReg T.builder s r x) (Yields.any _)).mono ?_
      intro _ s' _ h
      rw [h.2.1]
      exact .refl _
  | mem addr size =>
      have hkeeps : Yields (body σ) ok (s.memory.setExprToMem T.builder addr size x)
          (s.memory.SamePages ·) :=
        Memory.cells.setExprs_keeps (fun _ _ _ _ h hpoke => h.poke hpoke) _ (.refl _) _ _
      refine (onMemory_unit (f := fun mem => mem.setExprToMem T.builder addr size x) hkeeps).mono ?_
      exact fun _ s' _ h => h.2.2.2

/-! ### Concretisation -/

variable (hs : s.WellFormed)
include hb hs

include hP in
theorem concretizeReg_returns (hr : T.Tracked r) : Returns (body σ) ok (T.concretizeReg r) s := by
  refine Returns.bind (getExprFromReg_returns hP hb hs hr) (getExprFromReg_reads hP hb hs r)
    fun x s₁ _ _ => ?_
  cases x with
  | none => exact .ret ()
  | some e =>
      refine Returns.bind (P := fun _ _ _ => True) (.tell _) (fun _ _ _ _ _ => trivial)
        fun _ s₂ _ _ => ?_
      exact clearExprFromReg_returns hr

omit [DecidableEq Reg] in
theorem concretizeMem_returns (addr : Addr) (size : Nat) :
    Returns (body σ) ok (T.concretizeMem addr size) s := by
  refine Returns.bind (P := fun _ _ _ => True) (getExprFromMem_returns hb hs addr size)
    (fun _ _ _ _ _ => trivial) fun x s₁ _ _ => ?_
  cases x with
  | none => exact .ret ()
  | some e =>
      refine Returns.bind (P := fun _ _ _ => True) (.tell _) (fun _ _ _ _ _ => trivial)
        fun _ s₂ _ _ => ?_
      exact clearExprFromMem_returns addr size

end Writes

/-! ### Handlers -/

end Process

end Qsym
