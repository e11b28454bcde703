import Qsym.Instrument.Vector

/-!
# Qsym.Instrument.Place

The shadow as one map from **places**, the bytes of the full registers and of the memory,
to expressions, and what the parts of handlers do to it: a read clears what does not
depend on the input or changes nothing (`Reads`), a clear empties the places of an operand
(`Cleared`), and a write changes no other place.

The cells hold expressions of bytes (`WellFormed`), as everything that is stored is taken
apart into bytes.
-/

namespace Qsym

open Procedure Qsym.Expr

/-- A byte of a full register or of the memory. -/
inductive Place (Reg : Type)
  | reg (f : Reg) (i : Nat)
  | mem (addr : Addr)
  deriving DecidableEq

/-- What the places hold. -/
abbrev ShadowMap (Reg : Type) := Place Reg → Option Expr

/-- What a place holds depends on the input. -/
def Symbolic {Reg : Type} (v : ShadowMap Reg) (k : Place Reg) : Prop :=
  ∃ e, v k = some e ∧ e.getDeps ≠ ∅

/-- The cells hold expressions of bytes. -/
structure Shadow.WellFormed (s : Shadow) : Prop where
  regs : RegExprs.cells.HoldBytes s.regs
  memory : Memory.cells.HoldBytes s.memory

namespace Process

variable {Reg : Type} [DecidableEq Reg] (T : Process Reg)

/-- The expression at a place. -/
def peek (s : Shadow) : ShadowMap Reg
  | .reg f i => if i < T.pin.regSize f then T.pin.peekByte s.regs (f, i) else none
  | .mem addr => s.memory.peek addr

omit [DecidableEq Reg] in
/-- The byte the process has at a place. -/
def byteAt : Place Reg → BitVec 8
  | .reg f i => T.context f i
  | .mem addr => T.memory addr

omit [DecidableEq Reg] in
/-- How many bytes are cleared with a register, and written with it. -/
def extent (r : Reg) : Nat :=
  if T.pin.regIsGr32 r then T.pin.regSize (T.pin.regFullRegName r) else T.pin.regSize r

/-- The bytes `i`, …, `i + n - 1` of the full register of `r`. -/
def regPlaces (r : Reg) (i n : Nat) : List (Place Reg) :=
  (T.pin.bytesOf r i n).map fun k => .reg k.1 k.2

end Process

namespace Operand

variable {Reg : Type} (T : Process Reg)

/-- The places of an operand, the lowest byte first. -/
def places : Operand Reg → List (Place Reg)
  | .reg r => (T.pin.viewBytes r).map fun k => .reg k.1 k.2
  | .mem addr size => (Memory.addresses addr size).map .mem

/-- What is cleared with an operand: a 32-bit register is cleared with its upper half. -/
def dropped : Operand Reg → List (Place Reg)
  | .reg r =>
      if T.pin.regIsGr32 r then T.regPlaces r 0 (T.pin.regSize (T.pin.regFullRegName r))
      else (Operand.reg r).places T
  | .mem addr size => (Operand.mem addr size).places T

/-- What is written with an operand: a 32-bit register is written with its upper half. -/
def written (o : Operand Reg) : List (Place Reg) :=
  o.places T ++ match o with
    | .reg r => if T.pin.regIsGr32 r then T.regPlaces r 4 4 else []
    | .mem _ _ => []

/-- The value of an operand. -/
def value (o : Operand Reg) : Nat :=
  Bytes.littleEndian ((o.places T).map fun k => (T.byteAt k).toNat)

end Operand

namespace Process

variable {Reg : Type} [DecidableEq Reg] (T : Process Reg)

/-- Nothing is read from an operand. One byte of a register is read as it is; what is put
together from several cells counts only if it depends on the input. -/
def ReadsNull (v : ShadowMap Reg) (o : Operand Reg) : Prop :=
  match o with
  | .reg r =>
      if T.pin.regSize r = 1 then ∀ k ∈ o.places T, v k = none
      else ∀ k ∈ o.places T, ¬ Symbolic v k
  | .mem _ _ => ∀ k ∈ o.places T, ¬ Symbolic v k

/-- The value of the byte at a place for an input. -/
def byteValue (v : ShadowMap Reg) (ρ : Input) (k : Place Reg) : Nat :=
  match v k with
  | some e => e.value ρ
  | none => (T.byteAt k).toNat

/-- `s'` is `s` with the places in `ks` empty, as far as places go. -/
structure Cleared (s : Shadow) (ks : Place Reg → Prop) (s' : Shadow) : Prop where
  empty : ∀ k, ks k → T.peek s' k = none
  same : ∀ k, ¬ ks k → T.peek s' k = T.peek s k

/-- `s'` is `s` with something written to the places in `ks`, which are empty if it is
nothing. -/
structure Written (s : Shadow) (ks : Place Reg → Prop) (x : Option Expr) (s' : Shadow) : Prop where
  empty : x = none → ∀ k, ks k → T.peek s' k = none
  same : ∀ k, ¬ ks k → T.peek s' k = T.peek s k

/-- What a read of an operand does. -/
structure Reads (s : Shadow) (o : Operand Reg) (x : Option Expr) (s' : Shadow) : Prop where
  eflags : s'.eflags = s.eflags
  none_iff : x = none ↔ T.ReadsNull (T.peek s) o
  cleared : x = none → T.Cleared s (· ∈ o.places T) s'
  same : x ≠ none → s' = s
  pages : s.memory.SamePages s'.memory
  wellFormed : s'.WellFormed
  value : ∀ e, x = some e → ∀ ρ, e.value ρ =
    Bytes.littleEndian ((o.places T).map (T.byteValue (T.peek s) ρ))

/-- The shadow map with some places empty. -/
def clear (v : ShadowMap Reg) (ks : List (Place Reg)) : ShadowMap Reg :=
  fun k => if k ∈ ks then none else v k

/-- The places of a register of an address, if there is such a register. -/
def addrRegPlaces (r : Reg) : List (Place Reg) :=
  if r ≠ T.pin.regInvalid then (Operand.reg r).places T else []

theorem Cleared.peek_eq {T : Process Reg} {s s' : Shadow} {ks : List (Place Reg)}
    (h : T.Cleared s (· ∈ ks) s') : T.peek s' = clear (T.peek s) ks := by
  funext k
  rw [clear]
  split
  next hk => exact h.empty k hk
  next hk => exact h.same k hk

theorem Cleared.none_or_eq {T : Process Reg} {s s' : Shadow} {ks : Place Reg → Prop}
    (h : T.Cleared s ks s') (k : Place Reg) : T.peek s' k = none ∨ T.peek s' k = T.peek s k := by
  by_cases hk : ks k
  · exact .inl (h.empty k hk)
  · exact .inr (h.same k hk)

/-! ### Cells and places -/

section Cells

variable {T} {s s' : Shadow} {r f f' : Reg} {addr addr' i i' n : Nat}

open RegExprs (cells)

/-- Which cells of a register are the places of a range of bytes. -/
theorem mem_regAddresses_iff (hf : T.pin.mapRegToAddr.lookup f = some addr)
    (hn : i + n ≤ T.pin.regSize f) (hf' : T.pin.mapRegToAddr.lookup f' = some addr')
    (hi' : i' < T.pin.regSize f') :
    addr' + i' ∈ Pin.regAddresses (addr + i) n ↔ f' = f ∧ i ≤ i' ∧ i' < i + n := by
  rw [Pin.regAddresses, List.mem_range'_1]
  constructor
  · rintro ⟨hle, hlt⟩
    obtain ⟨j, hj⟩ : ∃ j, addr' + i' = addr + j := ⟨addr' + i' - addr, by omega⟩
    obtain ⟨rfl, rfl⟩ := Pin.mapRegToAddr_inj (Pin.mem_of_lookup hf') (Pin.mem_of_lookup hf)
      hi' (by omega) hj
    exact ⟨rfl, by omega, by omega⟩
  · rintro ⟨rfl, hle, hlt⟩
    obtain rfl : addr' = addr := Option.some.inj (hf'.symm.trans hf)
    omega

omit [DecidableEq Reg] in
theorem mem_regPlaces_iff {k : Place Reg} :
    k ∈ T.regPlaces r i n ↔ ∃ j, k = .reg (T.pin.regFullRegName r) j ∧ i ≤ j ∧ j < i + n := by
  simp only [regPlaces, Pin.bytesOf, List.map_map, List.mem_map, List.mem_range'_1, Function.comp]
  constructor
  · rintro ⟨j, hj, rfl⟩
    exact ⟨j, rfl, hj⟩
  · rintro ⟨j, rfl, hj⟩
    exact ⟨j, hj, rfl⟩

/-- A change of cells of a register is a change of its places. -/
theorem peek_of_cells (hf : T.pin.mapRegToAddr.lookup (T.pin.regFullRegName r) = some addr)
    (hn : i + n ≤ T.pin.regSize (T.pin.regFullRegName r)) (hm : s'.memory = s.memory)
    (h : ∀ a, a ∉ Pin.regAddresses (addr + i) n → cells.peek s'.regs a = cells.peek s.regs a)
    {k : Place Reg} (hk : k ∉ T.regPlaces r i n) : T.peek s' k = T.peek s k := by
  cases k with
  | mem a => exact congrArg (Memory.peek · a) hm
  | reg f' i' =>
      simp only [peek]
      split
      next hi' =>
          simp only [Pin.peekByte]
          cases hf' : T.pin.mapRegToAddr.lookup f' with
          | none => rfl
          | some addr' =>
              refine h _ fun hmem => hk (mem_regPlaces_iff.2 ?_)
              obtain ⟨rfl, hle, hlt⟩ := (mem_regAddresses_iff hf hn hf' hi').1 hmem
              exact ⟨i', rfl, hle, hlt⟩
      next => rfl

/-- Writing cells of a register writes its places. -/
theorem written_of_cells {x : Option Expr}
    (hf : T.pin.mapRegToAddr.lookup (T.pin.regFullRegName r) = some addr)
    (hn : i + n ≤ T.pin.regSize (T.pin.regFullRegName r)) (hm : s'.memory = s.memory)
    (h : cells.Written s.regs (Pin.regAddresses (addr + i) n) x s'.regs) :
    T.Written s (· ∈ T.regPlaces r i n) x s' := by
  refine ⟨fun hx k hk => ?_, fun k hk => peek_of_cells hf hn hm h.1 hk⟩
  obtain ⟨j, rfl, hle, hlt⟩ := mem_regPlaces_iff.1 hk
  have hj : j < T.pin.regSize (T.pin.regFullRegName r) := by omega
  simp only [peek, if_pos hj, Pin.peekByte, hf]
  exact (h.2 hx _).1 ((mem_regAddresses_iff hf hn hf hj).2 ⟨rfl, hle, hlt⟩)

/-- Clearing cells of a register clears its places. -/
theorem cleared_of_cells (hf : T.pin.mapRegToAddr.lookup (T.pin.regFullRegName r) = some addr)
    (hn : i + n ≤ T.pin.regSize (T.pin.regFullRegName r)) (hm : s'.memory = s.memory)
    (h : cells.Cleared s.regs (Pin.regAddresses (addr + i) n) s'.regs) :
    T.Cleared s (· ∈ T.regPlaces r i n) s' := by
  have hw := written_of_cells (x := none) hf hn hm ⟨fun a => (h a).2, fun _ => h⟩
  exact ⟨hw.empty rfl, hw.same⟩

end Cells

/-! ### Reads -/

section Reads

open Handler Stateful
open RegExprs (cells)

variable {T} {σ : Session} {ok : MethodCall → Prop} {α : Type} {s s' : Shadow} {r : Reg}

omit [DecidableEq Reg] in
theorem onRegs_ensures {f : RegExprs → Build (α × RegExprs)} {P : α × RegExprs → Prop}
    (h : Yields (body σ) ok (f s.regs) P) :
    Ensures (body σ) ok (onRegs f : Handler Reg α) s fun x s' l =>
      l = [] ∧ s'.memory = s.memory ∧ s'.eflags = s.eflags ∧ P (x, s'.regs) :=
  Yields.bind h fun _ hx => .ret ⟨rfl, rfl, rfl, hx⟩

omit [DecidableEq Reg] in
theorem onMemory_ensures {f : Memory → Build (α × Memory)} {P : α × Memory → Prop}
    (h : Yields (body σ) ok (f s.memory) P) :
    Ensures (body σ) ok (onMemory f : Handler Reg α) s fun x s' l =>
      l = [] ∧ s'.regs = s.regs ∧ s'.eflags = s.eflags ∧ P (x, s'.memory) :=
  Yields.bind h fun _ hx => .ret ⟨rfl, rfl, rfl, hx⟩

omit [DecidableEq Reg] in
/-- A method that only changes the registers. -/
theorem onRegs_unit {f : RegExprs → Build RegExprs} {P : RegExprs → Prop}
    (h : Yields (body σ) ok (f s.regs) P) :
    Ensures (body σ) ok (onRegs (fun s => do let s ← f s; return ((), s)) : Handler Reg Unit) s
      fun _ s' l => l = [] ∧ s'.memory = s.memory ∧ s'.eflags = s.eflags ∧ P s'.regs :=
  onRegs_ensures (P := fun x => P x.2) (h.bind fun _ hs' => .ret hs')

omit [DecidableEq Reg] in
/-- A method that only changes the memory. -/
theorem onMemory_unit {f : Memory → Build Memory} {P : Memory → Prop}
    (h : Yields (body σ) ok (f s.memory) P) :
    Ensures (body σ) ok (onMemory (fun s => do let s ← f s; return ((), s)) : Handler Reg Unit) s
      fun _ s' l => l = [] ∧ s'.regs = s.regs ∧ s'.eflags = s.eflags ∧ P s'.memory :=
  onMemory_ensures (P := fun x => P x.2) (h.bind fun _ hs' => .ret hs')

omit [DecidableEq Reg] in
/-- The places of a register are a range of bytes. -/
theorem places_reg (r : Reg) : (Operand.reg r).places T =
    T.regPlaces r (if T.pin.regIsUpper8 r then 1 else 0) (T.pin.regSize r) :=
  rfl

/-- The places of a register hold what its bytes hold. -/
theorem peek_of_mem_viewBytes (hP : T.pin.Documented) {k : Pin.RegByte Reg}
    (hk : k ∈ T.pin.viewBytes r) : T.peek s (.reg k.1 k.2) = T.pin.peekByte s.regs k := by
  have hview := hP.view_le r
  simp only [Pin.viewBytes, Pin.bytesOf, List.mem_map, List.mem_range'_1] at hk
  obtain ⟨j, hj, rfl⟩ := hk
  have hlt : j < T.pin.regSize (T.pin.regFullRegName r) := by omega
  exact if_pos hlt

theorem forall_places_reg (hP : T.pin.Documented) {p : Option Expr → Prop} :
    (∀ k ∈ (Operand.reg r).places T, p (T.peek s k)) ↔
      ∀ k ∈ T.pin.viewBytes r, p (T.pin.peekByte s.regs k) := by
  rw [Operand.places, List.forall_mem_map]
  exact forall₂_congr fun k hk => by rw [peek_of_mem_viewBytes hP hk]

/-- The shadow after a read that cleared cells is well-formed if it was before. -/
theorem WellFormed.cleared_regs {as : List Nat} (hs : s.WellFormed)
    (h : cells.Cleared s.regs as s'.regs) (hm : s'.memory = s.memory) : s'.WellFormed :=
  ⟨hs.regs.cleared h, hm ▸ hs.memory⟩

theorem getExprFromReg_reads (hP : T.pin.Documented) (hb : T.builder = SymbolicExprBuilder.chain)
    (hs : s.WellFormed) (r : Reg) : Ensures (body σ) ok (T.getExprFromReg r) s fun x s' l =>
      l = [] ∧ T.Reads s (.reg r) x s' := by
  have hmulti (addr : Nat) (haddr : T.pin.regToRegAddr r = some addr) (h1 : T.pin.regSize r ≠ 1) :
      Ensures (body σ) ok (onRegs fun s =>
        T.pin.getExprFromRegAddr T.builder s T.context addr (T.pin.regSize r) : Handler Reg _)
        s fun x s' l => l = [] ∧ T.Reads s (.reg r) x s' := by
    rw [hb]
    obtain ⟨base, hbase, rfl⟩ := Pin.regToRegAddr_eq_some haddr
    refine (onRegs_ensures (Pin.getExprFromRegAddr_own hP hs.regs h1 haddr)).mono ?_
    rintro x s' l ⟨rfl, hm, he, hread, hnone, hsome⟩
    have heq (hx : x ≠ none) : s' = s := Shadow.ext (hsome hx) hm he
    have hclear (hx : x = none) : T.Cleared s (· ∈ (Operand.reg r).places T) s' :=
      cleared_of_cells hbase (hP.view_le r) hm (hnone hx)
    refine ⟨rfl, ⟨he, ?_, hclear, heq, hm ▸ .refl _, ?_, fun e hx ρ => ?_⟩⟩
    · rw [hread.none_iff, ReadsNull, if_neg h1]
      refine Iff.trans ?_ (forall_places_reg hP (p := fun x => ¬ ∃ e, x = some e ∧
        e.getDeps ≠ ∅)).symm
      simp only [ne_eq, not_exists, not_and, not_not]
    · by_cases hx : x = none
      · exact WellFormed.cleared_regs hs (hnone hx) hm
      · exact heq hx ▸ hs
    · rw [hread.value e hx ρ, Bytes.Map.read, Operand.places, List.map_map]
      refine congrArg _ (List.map_congr_left fun k hk => ?_)
      simp only [Function.comp, byteValue, peek_of_mem_viewBytes hP hk, Bytes.Map.byteAt, Pin.own]
      cases T.pin.peekByte s.regs k <;> rfl
  unfold getExprFromReg Pin.getExprFromReg
  cases haddr : T.pin.regToRegAddr r with
  | none => exact Yields.stop
  | some addr =>
      have hmulti := hmulti addr haddr
      simp only
      split
      next h1 =>
          obtain ⟨base, hbase, rfl⟩ := Pin.regToRegAddr_eq_some haddr
          have hview := hP.view_le r
          have hlt : (if T.pin.regIsUpper8 r then 1 else 0) < T.pin.regSize
              (T.pin.regFullRegName r) := by
            omega
          have hplaces : (Operand.reg r).places T =
              [.reg (T.pin.regFullRegName r) (if T.pin.regIsUpper8 r then 1 else 0)] := by
            simp only [Operand.places, Pin.viewBytes, Pin.bytesOf, h1]
            rfl
          have hpeek : T.peek s
              (.reg (T.pin.regFullRegName r) (if T.pin.regIsUpper8 r then 1 else 0)) =
              s.regs (base + if T.pin.regIsUpper8 r then 1 else 0) := by
            simp only [peek, if_pos hlt, Pin.peekByte, hbase]
          refine Yields.ret ⟨rfl, rfl, ?_, fun hx => ⟨fun k hk => ?_, fun _ _ => rfl⟩, fun _ => rfl,
            .refl _, hs, fun e hx ρ => ?_⟩
          · rw [ReadsNull, if_pos h1, hplaces, List.forall_mem_singleton, hpeek]
          · rw [hplaces, List.mem_singleton] at hk
            rw [hk, hpeek]
            exact hx
          · rw [hplaces, List.map_singleton, byteValue, hpeek, show s.regs _ = some e from hx]
            rfl
      next h2 => exact h2 ▸ hmulti (by omega)
      next h4 => exact h4 ▸ hmulti (by omega)
      next h8 => exact h8 ▸ hmulti (by omega)
      next h16 => exact h16 ▸ hmulti (by omega)
      next h32 => exact h32 ▸ hmulti (by omega)
      next => exact Yields.stop

theorem getExprFromMem_reads (hb : T.builder = SymbolicExprBuilder.chain) (hs : s.WellFormed)
    (addr : Addr) (size : Nat) : Ensures (body σ) ok (T.getExprFromMem addr size) s fun x s' l =>
      l = [] ∧ T.Reads s (.mem addr size) x s' := by
  have hcells : Builds σ ok _ _ := Memory.cells.getExprs_builds hs.memory.shadows
    (Cells.own_consistentAt s.memory T.memory (Memory.addresses addr size))
  have hpages : Yields (body σ) ok (s.memory.getExprFromMem T.builder addr T.memory size)
      fun x => s.memory.SamePages x.2 :=
    Memory.cells.getExprs_keeps (fun _ _ _ _ h hpoke => h.poke hpoke) _ (.refl _) _ _
  have hread : Yields (body σ) ok (s.memory.getExprFromMem T.builder addr T.memory size) _ := hb ▸
    ((Yields.of_total hcells).and (Memory.cells.getExprs_state _ s.memory T.memory _))
  refine (onMemory_ensures (hread.and hpages)).mono ?_
  rintro x s' l ⟨rfl, hr, he, ⟨hread, hnone, hsome⟩, hpages⟩
  have heq (hx : x ≠ none) : s' = s := Shadow.ext hr (hsome hx) he
  have hmem (k : Place Reg) : k ∈ (Operand.mem addr size).places T ↔
      ∃ a, k = .mem a ∧ a ∈ Memory.addresses addr size := by
    simp only [Operand.places, List.mem_map, and_comm, eq_comm]
  refine ⟨rfl, ⟨he, ?_, fun hx => ⟨fun k hk => ?_, fun k hk => ?_⟩, heq, hpages, ?_,
    fun e hx ρ => ?_⟩⟩
  · rw [hread.none_iff]
    simp only [ReadsNull, Operand.places, List.forall_mem_map, Symbolic, peek, ne_eq, not_exists,
      not_and, not_not]
    rfl
  · obtain ⟨a, rfl, ha⟩ := (hmem k).1 hk
    exact (hnone hx a).1 ha
  · cases k with
    | reg f i => simp only [peek, hr]
    | mem a => exact (hnone hx a).2 fun ha => hk ((hmem _).2 ⟨a, rfl, ha⟩)
  · by_cases hx : x = none
    · exact ⟨hr ▸ hs.regs, hs.memory.cleared (hnone hx)⟩
    · exact heq hx ▸ hs
  · rw [(hread.composed e hx).value, Bytes.Map.read, Operand.places, List.map_map]
    refine congrArg _ (List.map_congr_left fun a _ => ?_)
    simp only [Function.comp, byteValue, peek, Bytes.Map.byteAt, Cells.own,
      show Memory.cells.peek s.memory a = s.memory.peek a from rfl]
    cases s.memory.peek a <;> rfl

end Reads

/-! ### Clears and writes -/

section Writes

open Handler Stateful
open RegExprs (cells)

variable {T} {σ : Session} {ok : MethodCall → Prop} {s : Shadow} {o : Operand Reg} {k : Place Reg}

omit [DecidableEq Reg] in
/-- An operand is cleared with all its places. -/
theorem places_subset_dropped (hP : T.pin.Documented) (o : Operand Reg) :
    o.places T ⊆ o.dropped T := by
  cases o with
  | mem addr size => exact fun _ hk => hk
  | reg r =>
      intro k hk
      rw [Operand.dropped]
      split
      next =>
          rw [places_reg, mem_regPlaces_iff] at hk
          obtain ⟨j, rfl, -, hj⟩ := hk
          have hview := hP.view_le r
          exact mem_regPlaces_iff.2 ⟨j, rfl, by omega, by omega⟩
      next => exact hk

omit [DecidableEq Reg] in
theorem extent_le (hP : T.pin.Documented) (r : Reg) :
    (if T.pin.regIsUpper8 r then 1 else 0) + T.extent r ≤ T.pin.regSize
      (T.pin.regFullRegName r) := by
  unfold extent
  by_cases h32 : T.pin.regIsGr32 r = true
  · simp [h32, hP.not_upper8_of_gr32 h32]
  · rw [if_neg h32]
    exact hP.view_le r

omit [DecidableEq Reg] in
theorem dropped_reg (hP : T.pin.Documented) (r : Reg) : (Operand.reg r).dropped T =
    T.regPlaces r ((if T.pin.regIsUpper8 r then 1 else 0) + 0) (T.extent r) := by
  rw [Operand.dropped, extent]
  by_cases h32 : T.pin.regIsGr32 r = true
  · rw [if_pos h32, if_pos h32, hP.not_upper8_of_gr32 h32]
    rfl
  · rw [if_neg h32, if_neg h32]
    rfl

omit [DecidableEq Reg] in
/-- An operand that has a place cleared along with another operand is cleared with it. -/
theorem dropped_of_mem_places (hP : T.pin.Documented) {o' : Operand Reg}
    (hk : k ∈ o.dropped T) (hko : k ∉ o.places T) (hk' : k ∈ o'.places T) :
    o'.places T ⊆ o.dropped T := by
  cases o with
  | mem addr size => exact absurd hk hko
  | reg r =>
      rw [Operand.dropped] at hk ⊢
      split at hk
      next h32 =>
          obtain ⟨j, rfl, -, -⟩ := mem_regPlaces_iff.1 hk
          cases o' with
          | mem addr size => simp [Operand.places] at hk'
          | reg r' =>
              rw [places_reg, mem_regPlaces_iff] at hk'
              obtain ⟨j', hj', -⟩ := hk'
              obtain ⟨hfull, rfl⟩ := Place.reg.inj hj'
              intro k' hk'
              rw [places_reg, mem_regPlaces_iff] at hk'
              obtain ⟨i, rfl, -, hi⟩ := hk'
              have hview := hP.view_le r'
              rw [if_pos h32]
              exact mem_regPlaces_iff.2 ⟨i, by rw [hfull], by omega, by rw [hfull]; omega⟩
      next => exact absurd hk hko

omit [DecidableEq Reg] in
theorem mem_places_mem {addr : Addr} {size : Nat} {k : Place Reg} :
    k ∈ (Operand.mem addr size).places T ↔ ∃ a, k = .mem a ∧ a ∈ Memory.addresses addr size := by
  simp only [Operand.places, List.mem_map, and_comm, eq_comm]

theorem clearExprFromRegPart_cleared {r : Reg} {off n : Nat}
    {size : Option Nat}
    (hsize : (if T.pin.regIsGr32 r ∧ off = 0 then T.pin.regSize (T.pin.regFullRegName r)
      else size.getD (T.pin.regSize r)) = n)
    (hn : (if T.pin.regIsUpper8 r then 1 else 0) + off + n ≤ T.pin.regSize
      (T.pin.regFullRegName r)) :
    Ensures (body σ) ok (T.clearExprFromRegPart r off size) s fun _ s' l => l = [] ∧
      s'.eflags = s.eflags ∧
      T.Cleared s (· ∈ T.regPlaces r ((if T.pin.regIsUpper8 r then 1 else 0) + off) n) s' ∧
      (s.WellFormed → s'.WellFormed) := by
  have hclear : Yields (body σ) ok (T.pin.clearExprFromReg s.regs r off size) _ :=
    Pin.clearExprFromReg_cells hsize
  refine (onRegs_unit (f := fun s => T.pin.clearExprFromReg s r off size) hclear).mono ?_
  rintro _ s' l ⟨rfl, hm, he, base, hbase, hs'⟩
  exact ⟨rfl, he, cleared_of_cells hbase hn hm hs', fun hs => WellFormed.cleared_regs hs hs' hm⟩

theorem clearExprFromReg_cleared (hP : T.pin.Documented) (r : Reg) :
    Ensures (body σ) ok (T.clearExprFromReg r) s fun _ s' l => l = [] ∧ s'.eflags = s.eflags ∧
      T.Cleared s (· ∈ (Operand.reg r).dropped T) s' ∧ (s.WellFormed → s'.WellFormed) := by
  rw [dropped_reg hP]
  exact clearExprFromRegPart_cleared (by simp only [and_true]; rfl) (extent_le hP r)

theorem clearExprFromMem_cleared (addr : Addr) (size : Nat) :
    Ensures (body σ) ok (clearExprFromMem addr size : Handler Reg Unit) s fun _ s' l =>
      l = [] ∧ s'.eflags = s.eflags ∧ T.Cleared s (· ∈ (Operand.mem addr size).places T) s' ∧
        (s.WellFormed → s'.WellFormed) := by
  have hclear : Yields (body σ) ok (s.memory.clearExprFromMem addr size) _ := (Yields.of_total
    (Memory.cells.clearExprs_builds s.memory (Memory.addresses addr size)))
  refine (onMemory_unit (f := fun mem => mem.clearExprFromMem addr size) hclear).mono ?_
  rintro _ s' l ⟨rfl, hr, he, hs'⟩
  refine ⟨rfl, he, ⟨fun k hk => ?_, fun k hk => ?_⟩,
    fun hs => ⟨hr ▸ hs.regs, hs.memory.cleared hs'⟩⟩
  · obtain ⟨a, rfl, ha⟩ := mem_places_mem.1 hk
    exact (hs' a).1 ha
  · cases k with
    | reg f i => simp only [peek, hr]
    | mem a => exact (hs' a).2 fun ha => hk (mem_places_mem.2 ⟨a, rfl, ha⟩)

end Writes

end Process

namespace MemArg

variable {Reg : Type} [DecidableEq Reg] (T : Process Reg) (m : MemArg Reg)

/-- The places of the base and the index register. -/
def places : List (Place Reg) :=
  T.addrRegPlaces m.base ++ T.addrRegPlaces m.index

/-- A register of the address carries a symbolic expression. -/
def SymbolicAddress (s : Shadow) : Prop :=
  ∃ k ∈ m.places T, Symbolic (T.peek s) k

end MemArg

namespace Registers

variable {Reg : Type} (P : Registers Reg)

/-- What Pin documents of registers that handlers name on x86-64: the pointers of implicit
memory operands are full registers, the accumulator of a size has that size, and the
invalid register is no register of interest. -/
structure Named [DecidableEq Reg] : Prop where
  regGsi : P.regFullRegName P.regGsi = P.regGsi
  regGdi : P.regFullRegName P.regGdi = P.regGdi
  regStackPtr : P.regFullRegName P.regStackPtr = P.regStackPtr
  getAx : ∀ n ∈ [1, 2, 4, 8], P.regSize (P.getAx n) = n
  getDx : ∀ n ∈ [1, 2, 4, 8], P.regSize (P.getDx n) = n
  regInvalid : P.isInterestingReg (P.regFullRegName P.regInvalid) = false

end Registers

/-! ### Registers of x86-64 -/

/-- The registers that handlers name, views of them, and two vector registers. -/
inductive X86Reg
  | invalid
  | rax | eax | ax | al | ah | rbx | ebx | rcx | ecx | cl | rdx | edx | dx | dl
  | rsi | rdi | rbp | rsp | rip | rflags | ymm0 | xmm0 | ymm1 | xmm1
  deriving DecidableEq, Repr

namespace X86Reg

def full : X86Reg → X86Reg
  | rax | eax | ax | al | ah => rax
  | rbx | ebx => rbx
  | rcx | ecx | cl => rcx
  | rdx | edx | dx | dl => rdx
  | ymm0 | xmm0 => ymm0
  | ymm1 | xmm1 => ymm1
  | r => r

def size : X86Reg → Nat
  | eax | ebx | ecx | edx => 4
  | ax | dx => 2
  | al | ah | cl | dl => 1
  | xmm0 | xmm1 => 16
  | ymm0 | ymm1 => 32
  | _ => 8

/-- The table of these registers. -/
def registers : Registers X86Reg where
  regs := [rax, rbx, rcx, rdx, rsi, rdi, rbp, rsp, rip, ymm0, ymm1]
  regFullRegName := full
  regSize := size
  regIsGr r := r ∈ [rax, rbx, rcx, rdx, rsi, rdi, rbp, rsp]
  regIsXmm r := r ∈ [xmm0, xmm1]
  regIsYmm r := r ∈ [ymm0, ymm1]
  regIsGr32 r := r ∈ [eax, ebx, ecx, edx]
  regIsUpper8 r := r = ah
  regInstPtr := rip
  regInvalid := invalid
  regAl := al
  regAx := ax
  regEax := eax
  regRax := rax
  regDl := dl
  regDx := dx
  regEdx := edx
  regRdx := rdx
  regCl := cl
  regEbx := ebx
  regEcx := ecx
  regGsi := rsi
  regGdi := rdi
  regStackPtr := rsp
  regEflags := rflags
  regIsFlags r := r = rflags

theorem registers_documented : registers.Documented where
  full_full r := by cases r <;> rfl
  size_pos r := by cases r <;> decide
  size_le r := by cases r <;> decide
  upper8 r := by cases r <;> decide
  not_upper8_full r := by cases r <;> rfl
  gr32 r := by cases r <;> decide

theorem registers_named : registers.Named where
  regGsi := rfl
  regGdi := rfl
  regStackPtr := rfl
  getAx := by decide
  getDx := by decide
  regInvalid := by decide

/-- A process whose registers and memory are zero. -/
def process : Process X86Reg where
  pin := registers
  builder := SymbolicExprBuilder.chain
  context _ _ := 0
  memory _ := 0

/-- A shadow that has input bytes in some cells of the registers. -/
def shadow (cells : List Nat) : Shadow where
  regs addr := if addr ∈ cells then some (.read 0) else none
  memory := Memory.onePage
  eflags := .init

theorem onePage_peek (addr : Addr) : Memory.onePage.peek addr = none := by
  unfold Memory.peek Memory.getPage Memory.onePage
  dsimp only
  split
  next => rfl
  next h =>
      split at h
      · cases h
        rfl
      · cases h

theorem shadow_wellFormed (cells : List Nat) (eflags : Eflags) :
    { shadow cells with eflags }.WellFormed where
  regs addr e he := by
    have he : (if addr ∈ cells then some (Expr.read 0) else none) = some e := he
    split at he
    next =>
        cases he
        exact ⟨trivial, by decide, rfl, rfl⟩
    next => cases he
  memory addr e he := nomatch (onePage_peek addr).symm.trans he

end X86Reg

end Qsym
