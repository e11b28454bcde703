import Qsym.Instrument.Returning
import Qsym.Instrument.VexForm

/-!
# Qsym.Instrument.Source

Handlers that compute their destination from **one source**. If the source depends on the
input then the destination shows the result, and else it is let go of (`Provides`).
-/

namespace Qsym

open Procedure
open SymbolicExprBuilder (chain)

namespace Process

open Handler Stateful

variable {Reg : Type} [DecidableEq Reg] {T : Process Reg} {σ : Session} {s : Shadow}
variable {o d : Operand Reg} {v v' : ShadowMap Reg} {dep : Prop}

omit [DecidableEq Reg] in
/-- Some byte of the operand depends on the input. -/
def Depends (T : Process Reg) (v : ShadowMap Reg) (o : Operand Reg) : Prop :=
  ∃ k ∈ o.places T, Symbolic v k

omit [DecidableEq Reg] in
theorem Fades.depends_iff (h : Fades v v') : Depends T v' o ↔ Depends T v o :=
  exists_congr fun _ => and_congr_right fun _ => h.symbolic_iff

omit [DecidableEq Reg] in
/-- Nothing that is read depends on the input, and the destination has no expression, or the
destination shows `u`. -/
def Provides (T : Process Reg) (dep : Prop) (v' : ShadowMap Reg) (d : Operand Reg)
    (u : Input → BitVec (d.size T * 8)) : Prop :=
  (¬ dep ∧ ∀ k ∈ d.places T, v' k = none) ∨ dep ∧ ∀ ρ, T.Shows v' d ρ (u ρ)

omit [DecidableEq Reg] in
/-- The destination has the value `u'` exactly where that is what is computed, or what the process
has. -/
theorem Provides.delivers_iff {input : Input} {u u' : Input → BitVec (d.size T * 8)}
    (h : Provides T dep v' d u) (ρ : Input) :
    Delivers input T v' d u' ρ ↔ (dep → u ρ = u' ρ) ∧ (¬ dep → u' ρ = u' input) := by
  rcases h with ⟨hnot, hempty⟩ | ⟨hdep, hshows⟩
  · rw [delivers_iff_of_empty hempty]
    exact ⟨fun h => ⟨fun hdep => absurd hdep hnot, fun _ => h⟩, fun h => h.2 hnot⟩
  · rw [(hshows ρ).delivers_iff]
    exact ⟨fun h => ⟨fun _ => h, fun hnot => absurd hdep hnot⟩, fun h => h.1 hdep⟩

omit [DecidableEq Reg] in
/-- A source that does not depend on the input has the value of the process. -/
theorem Consistent.bv_constant {input : Input} (hv : T.Consistent input v) (h : ¬ Depends T v o)
    (ρ : Input) : o.bv T v ρ = o.bv T v input := by
  have hnot (k : Place Reg) (hk : k ∈ o.places T) : ¬ Symbolic v k := fun hsym => h ⟨k, hk, hsym⟩
  rw [hv.bv hnot ρ, hv.bv hnot input]

omit [DecidableEq Reg] in
theorem Delivers.congr {input : Input} {u u' : Input → BitVec (d.size T * 8)} {ρ : Input}
    (h : Delivers input T v d u ρ) (hρ : u ρ = u' ρ) (hinput : u input = u' input) :
    Delivers input T v d u' ρ := by
  intro i hi
  have hstands := h i hi
  cases hcell : v (d.place T i) with
  | none =>
      rw [hcell] at hstands
      change Bytes.byte (u ρ).toNat i = Bytes.byte (u input).toNat i at hstands
      rw [hρ, hinput] at hstands
      exact hstands
  | some e =>
      rw [hcell] at hstands
      exact hstands.trans (congrArg (fun w => Bytes.byte w.toNat i) hρ)

/-! ### Operands that are concretised -/

section Held

omit [DecidableEq Reg]

/-- For the input `ρ` the operand has the bytes of the process. -/
def Held (T : Process Reg) (v : ShadowMap Reg) (o : Operand Reg) (ρ : Input) : Prop :=
  ∀ k ∈ o.places T, T.byteValue v ρ k = (T.byteAt k).toNat

theorem Consistent.held {input : Input} (hv : T.Consistent input v) (o : Operand Reg) :
    Held T v o input := by
  intro k _
  unfold Process.byteValue
  split
  next e he => exact hv k e he
  next => rfl

theorem dropped_eq_places (hP : T.pin.Documented) (ho : o.size T ≠ 4) :
    o.dropped T = o.places T := by
  cases o with
  | mem addr n => rfl
  | reg r =>
      have hgr32 : ¬ T.pin.regIsGr32 r = true := fun h => ho (hP.gr32 r h).1
      rw [Operand.dropped, if_neg hgr32]

variable {s' : Shadow} {l : List (Request Reg)} {ρ : Input}

theorem bv_congr (h : ∀ k, T.byteValue v' ρ k = T.byteValue v ρ k) (o : Operand Reg) :
    o.bv T v' ρ = o.bv T v ρ := by
  rw [Operand.bv, Operand.bv, List.map_congr_left fun k _ => h k]

end Held

variable {s' : Shadow} {l : List (Request Reg)} {ρ : Input}

theorem Concretized.cleared (h : T.Concretized s o s' l) (ho : o.dropped T = o.places T) :
    T.Cleared s (· ∈ o.places T) s' := by
  by_cases hnull : T.ReadsNull (T.peek s) o
  · exact (h.null hnull).2
  · exact ho ▸ (h.equation hnull).2

/-- What is empty stays so. -/
theorem Concretized.eq_none (h : T.Concretized s o s' l) {k : Place Reg} (hk : T.peek s k = none) :
    T.peek s' k = none :=
  (h.none_or_eq k).elim id fun hsame => hsame.trans hk

theorem Concretized.settled (h : T.Concretized s o s' l) {k : Place Reg} (hk : k ∈ o.places T)
    (hsym : Symbolic (T.peek s) k) : T.Settled (T.peek s) l k := by
  have hnull : ¬ T.ReadsNull (T.peek s) o := fun hnull => hnull.not_symbolic hk hsym
  obtain ⟨⟨e, hl, hfixes⟩, -⟩ := h.equation hnull
  exact hfixes.settled (.inl rfl) hk (by rw [hl]; exact List.mem_singleton_self _)

/-- Where the operand has the bytes of the process nothing changes with its expressions. -/
theorem Cleared.byteValue_eq (h : T.Cleared s (· ∈ o.places T) s') (hheld : Held T (T.peek s) o ρ)
    (k : Place Reg) : T.byteValue (T.peek s') ρ k = T.byteValue (T.peek s) ρ k := by
  by_cases hk : k ∈ o.places T
  · rw [hheld k hk, byteValue, h.empty k hk]
  · rw [byteValue, byteValue, h.same k hk]

/-- A read after the shadow has aged. -/
theorem read_after {s₁ : Shadow} {p : Handler Reg (Option Expr)}
    (hp : Returns (body σ) exactly p s₁)
    (hgets : Gets σ T p o) (hattends : Attends σ T p o) (h₁ : T.Aged s s₁)
    (hv : T.Consistent σ.input (T.peek s)) :
    Achieves (body σ) exactly p s₁ fun x s₂ _ =>
      (T.Aged s s₂ ∧ T.Fetched (T.peek s) o x ∧ (x = none → T.Empty (T.peek s₂) [o]) ∧
        ∀ os, T.Empty (T.peek s₁) os → T.Empty (T.peek s₂) os) ∧
          (x ≠ none → Depends T (T.peek s) o) :=
  hp.achieves ((hgets.after h₁ hv).and ((hattends s₁ h₁.wellFormed).mono fun _ _ _ h hne =>
    h₁.fades.depends_iff.1 (h hne)))

section Handlers

variable (hP : T.pin.Documented) (hb : T.builder = chain) (hs : s.WellFormed)
  (hv : T.Consistent σ.input (T.peek s))

/-- What is well-sorted stays well-sorted where it is written. -/
theorem set_wellFormed (hP : T.pin.Documented) (hb : T.builder = chain) (hs : s.WellFormed)
    {u : Input → BitVec (d.size T * 8)} {e : Expr} (he : Expresses (d.size T * 8) u e) :
    Ensures (body σ) exactly (d.set T (some e)) s fun _ s' _ => s'.WellFormed := by
  cases d with
  | reg r =>
      have hregs : Yields (body σ) exactly (T.pin.setExprToReg T.builder s.regs r (some e)) _ :=
        hb ▸ Pin.setExprToReg_holdBytes hP he.isBV he.trimmed hs.regs
      refine (onRegs_unit (f := fun s => T.pin.setExprToReg T.builder s r (some e)) hregs).mono ?_
      rintro _ s' _ ⟨_, hmemory, _, hregs⟩
      exact ⟨hregs, hmemory ▸ hs.memory⟩
  | mem addr n =>
      have hlength : (0 + (Memory.addresses addr n).length) * 8 ≤
          (Operand.mem addr n).size T * 8 := by
        simp [Memory.addresses, Operand.size]
      have hmemory : Yields (body σ) exactly (s.memory.setExprToMem T.builder addr n (some e)) _ :=
        hb ▸ hs.memory.setBytes he.isBV he.trimmed hlength
      refine (onMemory_unit (f := fun mem => mem.setExprToMem T.builder addr n (some e))
        hmemory).mono ?_
      rintro _ s' _ ⟨_, hregs, _, hmemory⟩
      exact ⟨hregs ▸ hs.regs, hmemory⟩

include hP hb hs hv in
/-- What is read from the source is computed with, or else the destination is let go of. -/
theorem source_achieves {p : Handler Reg (Option Expr)} {clear : Handler Reg Unit}
    {result : Expr → Build Expr} {u : Input → BitVec (d.size T * 8)} {P : Shadow → Prop}
    (hp : Returns (body σ) exactly p s) (hgets : Gets σ T p o) (hattends : Attends σ T p o)
    (hkeeps : Ensures (body σ) exactly p s fun _ s' _ => P s')
    (hclear : ∀ s₁, s₁.WellFormed → P s₁ → Achieves (body σ) exactly clear s₁
      fun _ s' _ => s'.WellFormed ∧ ∀ k ∈ d.places T, T.peek s' k = none)
    (hd : d.size T ≤ 2 ^ 64)
    (hset : ∀ s₁ e, P s₁ → Expresses (d.size T * 8) u e →
      Returns (body σ) exactly (d.set T (some e)) s₁)
    (hres : Depends T (T.peek s) o → ∀ e, Expresses (o.size T * 8) (o.bv T (T.peek s)) e →
      Builds σ exactly (result e) (Expresses (d.size T * 8) u)) :
    Achieves (body σ) exactly (computing p clear fun x => do
        let res ← result x
        d.set T (some res)) s
      fun _ s' _ => s'.WellFormed ∧ Provides T (Depends T (T.peek s) o) (T.peek s') d u := by
  have hread := hp.achieves (((hgets s hs hv).and (hattends s hs)).and hkeeps)
  refine hread.bind fun x s₁ _ ⟨⟨⟨h₁, hx, hempty⟩, hdep⟩, hP₁⟩ => ?_
  cases x with
  | none =>
      refine (hclear s₁ h₁.wellFormed hP₁).mono fun _ s' _ ⟨hs', hnone⟩ => ⟨hs', .inl ⟨?_, hnone⟩⟩
      rintro ⟨k, hk, hsym⟩
      exact h₁.fades.not_symbolic (hempty rfl o (List.mem_singleton_self o) k hk) hsym
  | some e =>
      refine Achieves.lift_bind (hres (hdep nofun) e hx) fun res hres => ?_
      refine ((hset s₁ res hP₁ hres).achieves ((set_wellFormed hP hb h₁.wellFormed hres).and
        (set_puts hP hb hd hres))).mono fun _ s' _ ⟨hs', _, hputs⟩ => ⟨hs', ?_⟩
      exact .inr ⟨hdep nofun, hputs.shows⟩

include hs hv in
/-- What cannot be computed from a source that depends on the input stops the process. -/
theorem source_stops {p : Handler Reg (Option Expr)} {clear : Handler Reg Unit}
    {result : Expr → Build Expr} {set : Expr → Handler Reg Unit} (hgets : Gets σ T p o)
    (hdep : Depends T (T.peek s) o)
    (hres : ∀ e, Expresses (o.size T * 8) (o.bv T (T.peek s)) e →
      Yields (body σ) exactly (result e) fun _ => False) :
    Ensures (body σ) exactly (computing p clear fun x => do
        let res ← result x
        set res) s fun _ _ _ => False := by
  refine Ensures.bind (hgets s hs hv) fun x s₁ _ ⟨h₁, hx, hempty⟩ => ?_
  cases x with
  | none =>
      obtain ⟨k, hk, hsym⟩ := hdep
      have hnone : T.peek s₁ k = none := hempty rfl o (List.mem_singleton_self o) k hk
      exact absurd hsym (h₁.fades.not_symbolic hnone)
  | some e => exact Ensures.lift_bind (hres e hx) fun _ h => h.elim

include hP in
theorem clearExprFromReg_achieves {r : Reg} (hr : T.Tracked r) :
    Achieves (body σ) exactly (T.clearExprFromReg r) s fun _ s' _ =>
      (s.WellFormed → s'.WellFormed) ∧ ∀ k ∈ (Operand.reg r).places T, T.peek s' k = none := by
  refine (clearExprFromReg_returns hr).achieves ?_
  refine (clearExprFromReg_cleared hP r).mono fun _ s' _ ⟨_, _, hcleared, hwf⟩ =>
    ⟨hwf, fun k hk => ?_⟩
  exact hcleared.empty k (places_subset_dropped hP (.reg r) hk)

include hP hb hs hv in
/-- A register is computed from one source. -/
theorem vexSource_achieves {dst : Reg} {p : Handler Reg (Option Expr)} {result : Expr → Build Expr}
    {u : Input → BitVec (T.pin.regSize dst * 8)} (hp : Returns (body σ) exactly p s)
    (hgets : Gets σ T p o) (hattends : Attends σ T p o) (hdst : T.Tracked dst)
    (hres : Depends T (T.peek s) o → ∀ e, Expresses (o.size T * 8) (o.bv T (T.peek s)) e →
      Builds σ exactly (result e) (Expresses (T.pin.regSize dst * 8) u)) :
    Achieves (body σ) exactly (T.vex p dst result) s
      fun _ s' _ => s'.WellFormed ∧
        Provides T (Depends T (T.peek s) o) (T.peek s') (.reg dst) u := by
  have hsize : T.pin.regSize dst ≤ 2 ^ 64 :=
    (by decide : ∀ n ∈ [1, 2, 4, 8, 16, 32], n ≤ 2 ^ 64) _ hdst.size
  have hclear (s₁ : Shadow) (h₁ : s₁.WellFormed) :
      Achieves (body σ) exactly (T.clearExprFromReg dst) s₁
      fun _ s' _ => s'.WellFormed ∧ ∀ k ∈ (Operand.reg dst).places T, T.peek s' k = none :=
    (clearExprFromReg_achieves hP hdst).mono fun _ _ _ h => ⟨h.1 h₁, h.2⟩
  exact source_achieves (d := .reg dst) (P := fun _ => True) hP hb hs hv hp hgets hattends
    (fun _ _ _ _ _ => trivial) (fun s₁ h₁ _ => hclear s₁ h₁) hsize
    (fun _ _ _ he => setExprToReg_returns hP hb hdst he.isBV le_rfl) hres

end Handlers

end Process

end Qsym
