import Mathlib.Tactic.IntervalCases
import Qsym.Instrument.Copy
import Qsym.Instrument.Moving

/-!
# Qsym.Instrument.PartialMove

Moves of a part of a vector register: `MOVD`, `MOVQ`, the scalar `MOVSD`, `MOVLPS`, `MOVLPD`,
`MOVHPS` and `MOVHPD`. The rest of the destination is zeroed by some forms and left alone by
others (`architectural`).

Three forms go wrong. `instrumentMovlzRegReg` clears from the size of the source register on,
which is nothing if that is a vector register too, and the scalar `MOVSD` is taken for a plain
move: its load leaves the upper half, and its move between registers copies it. So they are
right if the upper half is such that this makes no difference (`Fresh`).
-/

namespace Qsym

open Procedure

/-- The handlers of partial moves, by what the dispatcher takes them for: `MOVD` and `MOVQ`
(`movlz`), `MOVLPS` and `MOVLPD` (`movl`), `MOVHPS` and `MOVHPD` (`movh`), and `MOVSD`. -/
inductive PartialMove (Reg : Type)
  | movlzRegReg (dst src : Reg) (width : Nat)
  | movlzRegMem (dst : Reg) (m : MemArg Reg) (width : Nat)
  | movlzMemReg (m : MemArg Reg) (src : Reg) (width : Nat)
  | movlRegMem (dst : Reg) (m : MemArg Reg)
  | movlMemReg (m : MemArg Reg) (src : Reg)
  | movhRegMem (dst : Reg) (m : MemArg Reg)
  | movhMemReg (m : MemArg Reg) (src : Reg)
  | movsdRegReg (dst src : Reg)
  | movsdRegMem (dst : Reg) (m : MemArg Reg)
  | movsdMemReg (m : MemArg Reg) (src : Reg)

namespace MemArg

variable {Reg : Type} [DecidableEq Reg] (T : Process Reg) (m : MemArg Reg)

/-- The address is made of registers with eight bytes. -/
def OverGr : Prop :=
  ∀ r ∈ [m.base, m.index], r ≠ T.pin.regInvalid → T.pin.regSize (T.pin.regFullRegName r) = 8

variable {T m}

theorem OverGr.place_of_mem (h : m.OverGr T) {k : Place Reg} (hk : k ∈ m.places T) :
    ∃ f j, k = .reg f j ∧ T.pin.regSize f = 8 := by
  have hreg (r : Reg) (hr : r ∈ [m.base, m.index]) (hk : k ∈ T.addrRegPlaces r) :
      ∃ f j, k = .reg f j ∧ T.pin.regSize f = 8 := by
    rw [Process.addrRegPlaces] at hk
    split at hk
    next hvalid =>
        rw [Process.places_reg, Process.mem_regPlaces_iff] at hk
        obtain ⟨j, rfl, -⟩ := hk
        exact ⟨_, j, rfl, h r hr hvalid⟩
    next => cases hk
  rcases List.mem_append.1 hk with hk | hk
  · exact hreg m.base (by simp) hk
  · exact hreg m.index (by simp) hk

/-- No vector register takes part in an address. -/
theorem OverGr.bytePlace_notMem (h : m.OverGr T) (hP : T.pin.Documented) {r : Reg}
    (hr : T.pin.regSize r = 16) (i : Nat) : T.bytePlace r i ∉ m.places T := by
  intro hk
  obtain ⟨f, j, heq, hf⟩ := h.place_of_mem hk
  obtain ⟨rfl, -⟩ := Place.reg.inj heq
  have hle := hP.size_le r
  omega

theorem OverGr.memPlace_notMem (h : m.OverGr T) (addr : Addr) (i : Nat) :
    Process.memPlace addr i ∉ m.places T := by
  intro hk
  obtain ⟨f, j, heq, -⟩ := h.place_of_mem hk
  cases heq

end MemArg

namespace PartialMove

variable {Reg : Type} [DecidableEq Reg] (T : Process Reg)

def handler : PartialMove Reg → Handler Reg Unit
  | movlzRegReg dst src width => T.instrumentMovlzRegReg dst src width
  | movlzRegMem dst m width => T.instrumentMovlzRegMem dst m width
  | movlzMemReg m src width => T.instrumentMovlzMemReg m src width
  | movlRegMem dst m | movsdRegMem dst m => T.instrumentMovRegMem dst m
  | movlMemReg m src | movsdMemReg m src => T.instrumentMovMemReg m src
  | movhRegMem dst m => T.instrumentMovhRegMem dst m
  | movhMemReg m src => T.instrumentMovhMemReg m src
  | movsdRegReg dst src => T.instrumentMovRegReg dst src

omit [DecidableEq Reg] in
/-- What is written. -/
def dst : PartialMove Reg → Operand Reg
  | movlzRegReg dst _ _ | movlzRegMem dst _ _ | movlRegMem dst _ | movhRegMem dst _
  | movsdRegReg dst _ | movsdRegMem dst _ => .reg dst
  | movlzMemReg m _ _ | movlMemReg m _ | movhMemReg m _ | movsdMemReg m _ => .mem m.addr m.size

/-- The places of the address that is made concrete. -/
def addressPlaces : PartialMove Reg → List (Place Reg)
  | movlzRegReg _ _ _ | movsdRegReg _ _ => []
  | movlzRegMem _ m _ | movlzMemReg m _ _ | movlRegMem _ m | movlMemReg m _ | movhRegMem _ m
  | movhMemReg m _ | movsdRegMem _ m | movsdMemReg m _ => m.places T

/-- The operands that the instructions have: `MOVD` and `MOVQ` move four and eight bytes between
a vector register and a register or memory of that size, `MOVQ` also between two vector
registers, and the others eight bytes between a vector register and memory or, for `MOVSD`,
another vector register. -/
def Admitted : PartialMove Reg → Prop
  | movlzRegReg dst src width => (width = 4 ∨ width = 8) ∧
      (T.pin.regSize dst = 16 ∧ T.pin.regSize src = width ∨
        T.pin.regSize dst = width ∧ T.pin.regSize src = 16 ∨
        width = 8 ∧ T.pin.regSize dst = 16 ∧ T.pin.regSize src = 16)
  | movlzRegMem r m width | movlzMemReg m r width =>
      (width = 4 ∨ width = 8) ∧ T.pin.regSize r = 16 ∧ m.size = width ∧ m.OverGr T
  | movlRegMem r m | movlMemReg m r | movhRegMem r m | movhMemReg m r | movsdRegMem r m
  | movsdMemReg m r => T.pin.regSize r = 16 ∧ m.size = 8 ∧ m.OverGr T
  | movsdRegReg dst src => T.pin.regSize dst = 16 ∧ T.pin.regSize src = 16

/-- The registers have cells, the address can be read, and what is written to memory has pages. -/
def Accessible (s : Shadow) : PartialMove Reg → Prop
  | movlzRegReg dst src _ | movsdRegReg dst src => T.Tracked dst ∧ T.Tracked src
  | movlzRegMem dst m _ | movlRegMem dst m | movhRegMem dst m | movsdRegMem dst m =>
      T.Tracked dst ∧ T.Addressed m
  | movlzMemReg m src _ | movlMemReg m src | movhMemReg m src | movsdMemReg m src =>
      T.Tracked src ∧ T.Addressed m ∧ Process.Mapped s.memory m.addr m.size

omit [DecidableEq Reg] in
/-- The builder takes part: an address is made concrete. -/
def builds : PartialMove Reg → Bool
  | movlzRegReg .. | movsdRegReg .. => false
  | _ => true

omit [DecidableEq Reg] in
/-- What byte `i` of the destination holds after the instruction: a byte that was moved, nothing
where it is zeroed, or what it held where it is left alone. -/
def architectural (v : ShadowMap Reg) (i : Nat) : PartialMove Reg → Option Expr
  | movlzRegReg _ src width => if i < width then v (T.bytePlace src i) else none
  | movlzRegMem _ m width => if i < width then v (Process.memPlace m.addr i) else none
  | movlzMemReg _ src _ | movlMemReg _ src | movsdMemReg _ src => v (T.bytePlace src i)
  | movlRegMem dst m => if i < 8 then v (Process.memPlace m.addr i) else v (T.bytePlace dst i)
  | movhRegMem dst m =>
      if i < 8 then v (T.bytePlace dst i) else v (Process.memPlace m.addr (i - 8))
  | movhMemReg _ src => v (T.bytePlace src (i + 8))
  | movsdRegReg dst src => if i < 8 then v (T.bytePlace src i) else v (T.bytePlace dst i)
  | movsdRegMem _ m => if i < 8 then v (Process.memPlace m.addr i) else none

/-- The destination holds what it should, and nothing else is written; the registers of an
address may lose what does not depend on the input. -/
structure WritesArchitectural (form : PartialMove Reg) (v v' : ShadowMap Reg) : Prop where
  bytes : ∀ i < form.dst.size T, v' (form.dst.place T i) = form.architectural T v i
  upper : ∀ k ∈ form.dst.upper T, v' k = none
  other : ∀ k, k ∉ form.dst.written T →
    v' k = v k ∨ k ∈ form.addressPlaces T ∧ ¬ Symbolic v k ∧ v' k = none

omit [DecidableEq Reg] in
/-- The upper half makes no difference. -/
def Fresh (v : ShadowMap Reg) : PartialMove Reg → Prop
  | movlzRegReg dst src width => ∀ i, width ≤ i → i < T.pin.regSize dst → i < T.pin.regSize src →
      v (T.bytePlace dst i) = none
  | movsdRegReg dst src => ∀ i, 8 ≤ i → i < 16 → v (T.bytePlace src i) = v (T.bytePlace dst i)
  | movsdRegMem dst _ => ∀ i, 8 ≤ i → i < 16 → v (T.bytePlace dst i) = none
  | _ => True

end PartialMove

/-! ### Loops -/

namespace Process

open Handler Stateful Bytes

variable {Reg : Type} [DecidableEq Reg] {T : Process Reg} {σ : Session} {ok : MethodCall → Prop}
variable {s : Shadow} {dst src : Reg} {m : MemArg Reg} {n start : Nat} {off : Nat}

omit [DecidableEq Reg] in
theorem bytePlace_inj {r : Reg} {i j : Nat} (h : T.bytePlace r i = T.bytePlace r j) : i = j :=
  Nat.add_left_cancel (Place.reg.inj h).2

omit [DecidableEq Reg] in
/-- No wide register is the lower half of one of eight bytes. -/
theorem upperPlaces_eq_nil (hP : T.pin.Documented) (hdst : T.pin.regSize dst = 16) :
    T.upperPlaces dst = [] := by
  rw [upperPlaces, if_neg]
  intro h32
  have h4 := (hP.gr32 dst h32).1
  omega

section Memory

variable (hP : T.pin.Documented) (hb : T.builder = SymbolicExprBuilder.chain) (hs : s.WellFormed)
  (hm : m.OverGr T) (hpos : 0 < m.size) (hfit : m.size + start ≤ 16)
include hP hb hs hm hpos hfit

/-- A load into a vector register. -/
theorem doMovRegMem_bytes (hdst : T.pin.regSize dst = 16) :
    Ensures (body σ) ok (T.doMovRegMem dst m start) s fun _ s' _ =>
      (∀ i, T.peek s' (T.bytePlace dst i) = if start ≤ i ∧ i < start + m.size then
        T.peek s (memPlace m.addr (i - start)) else T.peek s (T.bytePlace dst i)) ∧
      ∀ k, k ∉ (Operand.reg dst).places T →
        T.peek s' k = T.peek s k ∨ k ∈ m.places T ∧ ¬ Symbolic (T.peek s) k ∧
          T.peek s' k = none := by
  have hview := hP.view_le dst
  refine (makeAddrConcrete_loses hP hb hs m).bind fun _ s₁ _ ⟨_, hlose⟩ => ?_
  refine (movMemToReg_copies hP hpos (by omega) s₁).mono fun _ s' _ hs' => ?_
  rw [upperPlaces_eq_nil hP hdst, ite_self, clear_nil] at hs'
  refine ⟨fun i => ?_, fun k hk => ?_⟩
  · split
    next hi =>
        have hinj (i : Nat) (_ : i < m.size) (j : Nat) (_ : j < m.size)
            (h : T.bytePlace dst (i + start) = T.bytePlace dst (j + start)) : i = j :=
          Nat.add_right_cancel (bytePlace_inj h)
        have hlater (i j : Nat) (_ : i < j) (_ : j < m.size) :
            T.bytePlace dst (i + start) ≠ memPlace m.addr j := by
          intro h
          cases h
        obtain ⟨j, rfl⟩ := Nat.exists_eq_add_of_le' hi.1
        rw [hs', copy_range _ hinj hlater (by omega), Nat.add_sub_cancel]
        exact (hlose _).resolve_right fun h => hm.memPlace_notMem _ _ h.1
    next hi =>
        rw [hs', copy_range_of_ne]
        · exact (hlose _).resolve_right fun h => hm.bytePlace_notMem hP hdst _ h.1
        · intro j hj h
          have := bytePlace_inj h
          omega
  · rw [hs', copy_range_of_ne]
    · exact hlose k
    · intro i hi h
      refine hk (Operand.mem_places_iff.2 ⟨i + start, ?_, h.symm⟩)
      rw [Operand.size]
      omega

/-- A store of a vector register. -/
theorem doMovMemReg_bytes (hsrc : T.pin.regSize src = 16) :
    Ensures (body σ) ok (T.doMovMemReg m src start) s fun _ s' _ =>
      (∀ i < m.size, T.peek s' (memPlace m.addr i) = T.peek s (T.bytePlace src (i + start))) ∧
        ∀ k, k ∉ (Operand.mem m.addr m.size).places T →
          T.peek s' k = T.peek s k ∨ k ∈ m.places T ∧ ¬ Symbolic (T.peek s) k ∧
            T.peek s' k = none := by
  have hview := hP.view_le src
  refine (makeAddrConcrete_loses hP hb hs m).bind fun _ s₁ _ ⟨_, hlose⟩ => ?_
  refine (movRegToMem_copies hpos (by omega) s₁).mono fun _ s' _ hs' => ?_
  refine ⟨fun i hi => ?_, fun k hk => ?_⟩
  · have hinj (i : Nat) (hi : i < m.size) (j : Nat) (hj : j < m.size)
        (h : (memPlace m.addr i : Place Reg) = memPlace m.addr j) : i = j := by
      have hsize : (Operand.mem m.addr m.size).size T ≤ 2 ^ 64 := by
        rw [Operand.size]
        omega
      exact Operand.place_inj hsize hi hj h
    have hlater (i j : Nat) (_ : i < j) (_ : j < m.size) :
        memPlace m.addr i ≠ T.bytePlace src (j + start) := by
      intro h
      cases h
    rw [hs', copy_range _ hinj hlater hi]
    exact (hlose _).resolve_right fun h => hm.bytePlace_notMem hP hsrc _ h.1
  · have hkept : ∀ i < m.size, memPlace m.addr i ≠ k := by
      intro i hi h
      exact hk (Operand.mem_places_iff.2 ⟨i, hi, h.symm⟩)
    rw [hs', copy_range_of_ne _ hkept]
    exact hlose k

end Memory

/-- The first bytes of a register go to another one. -/
theorem doMovRegReg_bytes (hP : T.pin.Documented) (hn : 4 ≤ n) (hdst : n ≤ T.pin.regSize dst)
    (hsrc : n ≤ T.pin.regSize src) :
    Ensures (body σ) ok (T.doMovRegReg dst src 0 0 n) s fun _ s' _ =>
      (∀ i < T.pin.regSize dst, T.peek s' (T.bytePlace dst i) =
        if i < n then T.peek s (T.bytePlace src i) else T.peek s (T.bytePlace dst i)) ∧
      (∀ k ∈ T.upperPlaces dst, T.peek s' k = none) ∧
      ∀ k, k ∉ (Operand.reg dst).written T → T.peek s' k = T.peek s k := by
  have hlow (r : Reg) (hr : n ≤ T.pin.regSize r) : T.pin.regIsUpper8 r = false := by
    by_contra hup
    have h1 := (hP.upper8 r (by simpa using hup)).1
    omega
  have hviewd := hP.view_le dst
  have hviews := hP.view_le src
  have hupper (i : Nat) (hi : i < T.pin.regSize dst) (r : Reg) (hr : n ≤ T.pin.regSize r) :
      T.bytePlace r i ∉ T.upperPlaces dst := by
    by_cases h32 : T.pin.regIsGr32 dst = true
    · have h4 := (hP.gr32 dst h32).1
      exact bytePlace_notMem_upper (by omega) fun h => nomatch (hlow r hr).symm.trans h
    · rw [upperPlaces, if_neg h32]
      exact List.not_mem_nil
  have hcopies : Ensures (body σ) ok (T.doMovRegReg dst src 0 0 n) s _ :=
    doMovRegReg_copies hP (by omega) (by omega) (by omega) (fun _ => rfl) s
  refine hcopies.mono fun _ s' _ hs' => ?_
  have hkept (k : Place Reg) (hk : ∀ i < n, T.bytePlace dst i ≠ k) :
      T.peek s' k = clear (T.peek s) (T.upperPlaces dst) k := by
    rw [hs']
    exact copy_range_of_ne _ hk
  refine ⟨fun i hi => ?_, fun k hk => ?_, fun k hk => ?_⟩
  · split
    next hin =>
        have hlater (i j : Nat) (hij : i < j) (_ : j < n) :
            T.bytePlace dst i ≠ T.bytePlace src j := by
          intro h
          have := (Place.reg.inj h).2
          rw [hlow dst hdst, hlow src hsrc] at this
          omega
        rw [hs']
        refine (copy_range _ (fun i _ j _ => bytePlace_inj) hlater hin).trans (clear_of_notMem ?_)
        exact hupper i hi src hsrc
    next hin =>
        rw [hkept, clear_of_notMem (hupper i hi dst hdst)]
        intro j hj h
        have := bytePlace_inj h
        omega
  · rw [hkept k, clear_of_mem hk]
    intro i hi h
    rw [← h] at hk
    exact hupper i (by omega) dst hdst hk
  · rw [Operand.written_eq, List.mem_append, not_or] at hk
    refine (hkept k fun i hi h => ?_).trans (clear_of_notMem hk.2)
    exact hk.1 (Operand.mem_places_iff.2 ⟨i, hi.trans_le hdst, h.symm⟩)

/-- The bytes of a register from `off` on are cleared. -/
theorem clearExprFromRegPart_bytes (hP : T.pin.Documented) {r : Reg} (hoff : off ≠ 0) :
    Ensures (body σ) ok (T.clearExprFromRegPart r off (some (T.pin.regSize r - off))) s
      fun _ s' _ =>
      (∀ i < T.pin.regSize r, T.peek s' (T.bytePlace r i) =
        if i < off then T.peek s (T.bytePlace r i) else none) ∧
      ∀ k, k ∉ (Operand.reg r).places T → T.peek s' k = T.peek s k := by
  have hview := hP.view_le r
  by_cases hle : off ≤ T.pin.regSize r
  · have hclear : Ensures (body σ) ok
        (T.clearExprFromRegPart r off (some (T.pin.regSize r - off))) s _ :=
      clearExprFromRegPart_cleared (n := T.pin.regSize r - off) (by simp [hoff]) (by omega)
    refine hclear.mono ?_
    rintro _ s' _ ⟨_, _, hcleared, _⟩
    refine ⟨fun i hi => ?_, fun k hk => hcleared.same k ?_⟩
    · split
      next hlt =>
          refine hcleared.same _ ?_
          rw [mem_regPlaces_iff]
          rintro ⟨j, h, hj, -⟩
          have := (Place.reg.inj h).2
          omega
      next hlt => exact hcleared.empty _ (mem_regPlaces_iff.2 ⟨_, rfl, by omega, by omega⟩)
    · rw [mem_regPlaces_iff]
      rintro ⟨j, rfl, hj, hj'⟩
      refine hk ?_
      rw [places_reg, mem_regPlaces_iff]
      exact ⟨j, rfl, by omega, by omega⟩
  · -- the size is not positive, so there is nothing to clear
    rw [Nat.sub_eq_zero_of_le (by omega)]
    have hcells : Yields (body σ) ok (T.pin.clearExprFromReg s.regs r off (some 0)) _ :=
      Pin.clearExprFromReg_cells (n := 0) (by simp [hoff])
    refine (onRegs_unit (f := fun s => T.pin.clearExprFromReg s r off (some 0)) hcells).mono ?_
    rintro _ s' _ ⟨_, hm, _, base, _, hcells⟩
    have hregs : s'.regs = s.regs := funext fun a => (hcells a).2 (by simp [Pin.regAddresses])
    have hpeek : T.peek s' = T.peek s := by
      funext k
      cases k with
      | reg f i => simp only [peek, Pin.peekByte, hregs]
      | mem a => simp only [peek, hm]
    refine ⟨fun i hi => ?_, fun k _ => congrFun hpeek k⟩
    rw [if_pos (by omega), hpeek]

end Process

/-! ### The handlers -/

namespace PartialMove

open Handler Stateful

variable {Reg : Type} [DecidableEq Reg] {T : Process Reg} {σ : Session} {ok : MethodCall → Prop}
variable {s : Shadow} {dst src : Reg} {m : MemArg Reg} {form : PartialMove Reg} {width start : Nat}

section

variable (hP : T.pin.Documented) (hb : T.builder = SymbolicExprBuilder.chain) (hs : s.WellFormed)
include hP hb hs

/-- A store writes what it should. -/
theorem store_writes (form : PartialMove Reg) (hform : form.dst = .mem m.addr m.size)
    (haddr : form.addressPlaces T = m.places T)
    (hm : m.OverGr T) (hsrc : T.pin.regSize src = 16) (hpos : 0 < m.size)
    (hfit : m.size + start ≤ 16)
    (harch : ∀ v : ShadowMap Reg, ∀ i < m.size, form.architectural T v i =
      v (T.bytePlace src (i + start))) :
    Ensures (body σ) ok (T.doMovMemReg m src start) s fun _ s' _ =>
      form.WritesArchitectural T (T.peek s) (T.peek s') := by
  refine (Process.doMovMemReg_bytes hP hb hs hm hpos hfit hsrc).mono
    fun _ s' _ ⟨hbytes, hother⟩ => ?_
  refine ⟨fun i hi => ?_, fun k hk => ?_, fun k hk => ?_⟩
  · rw [hform] at hi ⊢
    rw [harch _ i hi]
    exact hbytes i hi
  · rw [hform] at hk
    cases hk
  · rw [hform, Operand.written_eq, List.mem_append, not_or] at hk
    rw [haddr]
    exact hother k hk.1

/-- What a load into a vector register makes, if nothing is cleared. -/
theorem load_writes_iff (form : PartialMove Reg) (hform : form.dst = .reg dst)
    (haddr : form.addressPlaces T = m.places T)
    (hm : m.OverGr T) (hdst : T.pin.regSize dst = 16) (hpos : 0 < m.size)
    (hfit : m.size + start ≤ 16) :
    Ensures (body σ) ok (T.doMovRegMem dst m start) s fun _ s' _ =>
      (form.WritesArchitectural T (T.peek s) (T.peek s') ↔
        ∀ i < 16, (if start ≤ i ∧ i < start + m.size
          then T.peek s (Process.memPlace m.addr (i - start))
          else T.peek s (T.bytePlace dst i)) = form.architectural T (T.peek s) i) := by
  refine (Process.doMovRegMem_bytes hP hb hs hm hpos hfit hdst).mono
    fun _ s' _ ⟨hbytes, hother⟩ => ?_
  constructor
  · intro h i hi
    rw [← hbytes i, ← h.bytes i (by rwa [hform, Operand.size, hdst]), hform]
    rfl
  · intro h
    refine ⟨fun i hi => ?_, fun k hk => ?_, fun k hk => ?_⟩
    · rw [hform, Operand.size, hdst] at hi
      rw [hform, ← h i hi]
      exact hbytes i
    · rw [hform, Operand.upper, Process.upperPlaces_eq_nil hP hdst] at hk
      cases hk
    · rw [hform, Operand.written_eq, List.mem_append, not_or] at hk
      rw [haddr]
      exact hother k hk.1

theorem movlzRegMem_writes (hm : m.OverGr T) (hdst : T.pin.regSize dst = 16) (hpos : 0 < m.size)
    (hfit : m.size ≤ 16) :
    Ensures (body σ) ok (T.instrumentMovlzRegMem dst m m.size) s fun _ s' _ =>
      (movlzRegMem dst m m.size).WritesArchitectural T (T.peek s) (T.peek s') := by
  refine (Process.doMovRegMem_bytes hP hb hs hm hpos hfit hdst).bind
    fun _ s₁ _ ⟨hbytes, hother⟩ => ?_
  rw [if_pos (by omega)]
  refine (Process.clearExprFromRegPart_bytes hP hpos.ne').mono fun _ s' _ ⟨hcleared, hsame⟩ => ?_
  refine ⟨fun i hi => ?_, fun k hk => ?_, fun k hk => ?_⟩
  · refine (hcleared i hi).trans ?_
    rw [hbytes i, architectural]
    by_cases hlow : i < m.size <;> simp [hlow]
  · rw [PartialMove.dst, Operand.upper, Process.upperPlaces_eq_nil hP hdst] at hk
    cases hk
  · rw [PartialMove.dst, Operand.written_eq, List.mem_append, not_or] at hk
    rw [hsame k hk.1]
    exact hother k hk.1

end

/-- What `instrumentMovlzRegReg` makes. -/
theorem movlzRegReg_writes_iff (hP : T.pin.Documented) (hwidth : 4 ≤ width)
    (hdst : width ≤ T.pin.regSize dst) (hsrc : width ≤ T.pin.regSize src) :
    Ensures (body σ) ok (T.instrumentMovlzRegReg dst src width) s fun _ s' _ =>
      ((movlzRegReg dst src width).WritesArchitectural T (T.peek s) (T.peek s') ↔
        (movlzRegReg dst src width).Fresh T (T.peek s)) := by
  refine (Process.doMovRegReg_bytes hP hwidth hdst hsrc).bind
    fun _ s₁ _ ⟨hmoved, hupper, hother⟩ => ?_
  refine (Process.clearExprFromRegPart_bytes hP (by omega)).mono fun _ s' _ ⟨hcleared, hsame⟩ => ?_
  have hbyte (i : Nat) (hi : i < T.pin.regSize dst) : T.peek s' (T.bytePlace dst i) =
      if i < width then T.peek s (T.bytePlace src i)
      else if i < T.pin.regSize src then T.peek s (T.bytePlace dst i) else none := by
    rw [hcleared i hi, hmoved i hi]
    by_cases hlow : i < width
    · simp only [hlow, hlow.trans_le hsrc, if_true]
    · simp only [hlow, if_false]
  constructor
  · intro h i hi hid his
    have hzero := h.bytes i hid
    rw [architectural, if_neg (by omega)] at hzero
    have hkept := hbyte i hid
    rw [if_neg (by omega), if_pos his] at hkept
    exact hkept.symm.trans hzero
  · intro h
    refine ⟨fun i hi => ?_, fun k hk => ?_, fun k hk => .inl ?_⟩
    · refine (hbyte i hi).trans ?_
      rw [architectural]
      by_cases hlow : i < width
      · simp only [hlow, if_true]
      · simp only [hlow, if_false]
        split
        next his => exact h i (by omega) hi his
        next => rfl
    · rw [hsame k, hupper k hk]
      intro hmem
      obtain ⟨i, hi, rfl⟩ := Operand.mem_places_iff.1 hmem
      exact Operand.place_notMem_upper (o := .reg dst) hP rfl hi hk
    · have hk' := hk
      rw [Operand.written_eq, List.mem_append, not_or] at hk'
      rw [hsame k hk'.1]
      exact hother k hk

theorem movsdRegReg_writes_iff (hP : T.pin.Documented) (hdst : T.pin.regSize dst = 16)
    (hsrc : T.pin.regSize src = 16) :
    Ensures (body σ) ok (T.instrumentMovRegReg dst src) s fun _ s' _ =>
      ((movsdRegReg dst src).WritesArchitectural T (T.peek s) (T.peek s') ↔
        (movsdRegReg dst src).Fresh T (T.peek s)) := by
  refine (Process.doMovRegReg_bytes hP (by omega) le_rfl (by omega)).mono
    fun _ s' _ ⟨hmoved, hupper, hother⟩ => ?_
  have hbyte (i : Nat) (hi : i < 16) :
      T.peek s' (T.bytePlace dst i) = T.peek s (T.bytePlace src i) := by
    rw [hmoved i (by omega), if_pos (by omega)]
  constructor
  · intro h i hi hi'
    have hkept := h.bytes i (by rw [PartialMove.dst, Operand.size]; omega)
    rw [architectural, if_neg (by omega)] at hkept
    exact (hbyte i hi').symm.trans hkept
  · intro h
    refine ⟨fun i hi => ?_, hupper, fun k hk => .inl (hother k hk)⟩
    have hi : i < 16 := hdst ▸ hi
    refine (hbyte i hi).trans ?_
    rw [architectural]
    split
    next => rfl
    next hlow => exact h i (by omega) hi

theorem handler_ensures (hP : T.pin.Documented) (hb : T.builder = SymbolicExprBuilder.chain)
    (hs : s.WellFormed) (hform : form.Admitted T) :
    Ensures (body σ) ok (form.handler T) s fun _ s' _ =>
      (form.WritesArchitectural T (T.peek s) (T.peek s') ↔ form.Fresh T (T.peek s)) := by
  cases form with
  | movlzRegReg dst src width =>
      obtain ⟨hwidth, hsizes⟩ := hform
      exact movlzRegReg_writes_iff hP (by omega) (by omega) (by omega)
  | movlzRegMem dst m width =>
      obtain ⟨hwidth, hdst, rfl, hm⟩ := hform
      refine (movlzRegMem_writes hP hb hs hm hdst (by omega) (by omega)).mono fun _ s' _ h => ?_
      exact iff_of_true h trivial
  | movlzMemReg m src width =>
      obtain ⟨hwidth, hsrc, rfl, hm⟩ := hform
      refine (store_writes hP hb hs (.movlzMemReg m src m.size) rfl rfl hm hsrc (by omega)
        (by omega) fun _ _ _ => rfl).mono fun _ s' _ h => ?_
      exact iff_of_true h trivial
  | movlRegMem dst m =>
      obtain ⟨hdst, hsize, hm⟩ := hform
      refine (load_writes_iff hP hb hs (.movlRegMem dst m) rfl rfl hm hdst (by omega)
        (by omega)).mono
        fun _ s' _ h => h.trans (iff_of_true (fun i hi => ?_) trivial)
      rw [architectural, hsize]
      by_cases hlow : i < 8
      · simp [hlow]
      · simp [hlow]
  | movlMemReg m src =>
      obtain ⟨hsrc, hsize, hm⟩ := hform
      refine (store_writes hP hb hs (.movlMemReg m src) rfl rfl hm hsrc (by omega) (by omega)
        fun _ _ _ => rfl).mono fun _ s' _ h => ?_
      exact iff_of_true h trivial
  | movhRegMem dst m =>
      obtain ⟨hdst, hsize, hm⟩ := hform
      rw [handler, Process.instrumentMovhRegMem, if_pos hdst]
      refine (load_writes_iff hP hb hs (.movhRegMem dst m) rfl rfl hm hdst (by omega)
        (by omega)).mono
        fun _ s' _ h => h.trans (iff_of_true (fun i hi => ?_) trivial)
      rw [architectural, hsize]
      by_cases hlow : i < 8
      · simp [hlow, Nat.not_le.2 hlow]
      · simp [hlow, Nat.not_lt.1 hlow, hi]
  | movhMemReg m src =>
      obtain ⟨hsrc, hsize, hm⟩ := hform
      rw [handler, Process.instrumentMovhMemReg, if_pos hsrc]
      refine (store_writes hP hb hs (.movhMemReg m src) rfl rfl hm hsrc (by omega) (by omega)
        fun _ _ _ => rfl).mono fun _ s' _ h => ?_
      exact iff_of_true h trivial
  | movsdRegReg dst src =>
      obtain ⟨hdst, hsrc⟩ := hform
      exact movsdRegReg_writes_iff hP hdst hsrc
  | movsdRegMem dst m =>
      obtain ⟨hdst, hsize, hm⟩ := hform
      refine (load_writes_iff hP hb hs (.movsdRegMem dst m) rfl rfl hm hdst (by omega)
        (by omega)).mono
        fun _ s' _ h => h.trans ?_
      rw [hsize]
      constructor
      · intro h i hi hi'
        have hi := h i hi'
        rwa [architectural, if_neg (by omega), if_neg (by omega)] at hi
      · intro h i hi
        rw [architectural]
        by_cases hlow : i < 8
        · simp [hlow]
        · simp [hlow, h i (Nat.not_lt.1 hlow) hi]
  | movsdMemReg m src =>
      obtain ⟨hsrc, hsize, hm⟩ := hform
      refine (store_writes hP hb hs (.movsdMemReg m src) rfl rfl hm hsrc (by omega) (by omega)
        fun _ _ _ => rfl).mono fun _ s' _ h => ?_
      exact iff_of_true h trivial

/-- The handlers come to an end. -/
theorem handler_returns (hP : T.pin.Documented) (hb : T.builder = SymbolicExprBuilder.chain)
    (hs : s.WellFormed) (hform : form.Admitted T) (haccess : form.Accessible T s)
    (hok : form.builds = true → ∀ c, ok c → exactly c) :
    Returns (body σ) ok (form.handler T) s := by
  cases form with
  | movlzRegReg dst src width =>
      have hmove : Returns (body σ) ok (T.doMovRegReg dst src 0 0 width) s :=
        (Process.doMovRegReg_returns hP haccess.1 haccess.2 0 0 width).returns
      refine Returns.bind (P := fun _ _ _ => True) hmove (fun _ _ _ _ _ => trivial)
        fun _ _ _ _ => ?_
      exact Process.clearExprFromRegPart_returns haccess.1 _ _
  | movlzRegMem dst m width =>
      obtain ⟨hwidth, hdst, rfl, -⟩ := hform
      have hload : Returns (body σ) ok (T.doMovRegMem dst m 0) s :=
        Total.weaken (Process.doMovRegMem_returns hP hb hs haccess.1 haccess.2 0) (hok rfl)
      refine Returns.bind (P := fun _ _ _ => True) hload (fun _ _ _ _ _ => trivial)
        fun _ _ _ _ => ?_
      rw [if_pos (by omega)]
      exact Process.clearExprFromRegPart_returns haccess.1 _ _
  | movlRegMem dst m | movsdRegMem dst m =>
      exact Total.weaken (Process.doMovRegMem_returns hP hb hs haccess.1 haccess.2 0) (hok rfl)
  | movhRegMem dst m =>
      rw [handler, Process.instrumentMovhRegMem, if_pos hform.1]
      exact Total.weaken (Process.doMovRegMem_returns hP hb hs haccess.1 haccess.2 8) (hok rfl)
  | movlzMemReg m src _ | movlMemReg m src | movsdMemReg m src =>
      obtain ⟨hsrc, hm, hmapped⟩ := haccess
      exact Total.weaken (Process.doMovMemReg_returns hP hb hs hsrc hm hmapped 0) (hok rfl)
  | movhMemReg m src =>
      obtain ⟨hsrc, hm, hmapped⟩ := haccess
      rw [handler, Process.instrumentMovhMemReg, if_pos hform.1]
      exact Total.weaken (Process.doMovMemReg_returns hP hb hs hsrc hm hmapped 8) (hok rfl)
  | movsdRegReg dst src => exact (Process.doMovRegReg_returns hP haccess.1 haccess.2 0 0 _).returns

/-- **A partial move writes what it should if and only if** the upper half makes no difference.
Between registers it returns in every world. -/
theorem handler_writes_iff (hP : T.pin.Documented) (hb : T.builder = SymbolicExprBuilder.chain)
    (hs : s.WellFormed) (hform : form.Admitted T) (haccess : form.Accessible T s) :
    (Ensures (body σ) ok (form.handler T) s fun _ s' _ =>
      (form.WritesArchitectural T (T.peek s) (T.peek s') ↔ form.Fresh T (T.peek s))) ∧
    Achieves (body σ) (fun c => form.builds = true → exactly c) (form.handler T) s fun _ s' _ =>
      (form.WritesArchitectural T (T.peek s) (T.peek s') ↔ form.Fresh T (T.peek s)) := by
  have hreturns : Returns (body σ) (fun c => form.builds = true → exactly c) (form.handler T) s :=
    handler_returns hP hb hs hform haccess fun h c hc => hc h
  exact ⟨handler_ensures hP hb hs hform, hreturns.achieves (handler_ensures hP hb hs hform)⟩

section Movq

open X86Reg (process shadow)

/-- `MOVQ XMM0, XMM1`. -/
def movqXmm : PartialMove X86Reg :=
  .movlzRegReg .xmm0 .xmm1 8

theorem movqXmm_admitted : movqXmm.Admitted process :=
  ⟨.inr rfl, .inr (.inr ⟨rfl, rfl, rfl⟩)⟩

theorem movqXmm_accessible (s : Shadow) : movqXmm.Accessible process s :=
  ⟨X86Reg.tracked (by decide), X86Reg.tracked (by decide)⟩

/-- With an input byte in the lower half of `XMM1`, it is right. -/
theorem handler_writes_movqXmm : ∃ s' l w', Runs (body quietSession)
    (movqXmm.handler process (shadow [104])) (freshWorld 1) ((), s', l) w' ∧
      movqXmm.WritesArchitectural process (process.peek (shadow [104])) (process.peek s') := by
  have h : Ensures (body quietSession) (fun _ => True) _ _ _ ∧
      Achieves (body quietSession) _ (movqXmm.handler process) (shadow [104]) _ :=
    handler_writes_iff X86Reg.registers_documented rfl (X86Reg.shadow_wellFormed [104] .init)
      movqXmm_admitted (movqXmm_accessible _)
  obtain ⟨⟨_, s', l⟩, w', hr, -, hiff⟩ := h.2 (freshWorld 1) trivial fun _ _ => nofun
  refine ⟨s', l, w', hr, hiff.2 fun i hi hi' _ => ?_⟩
  have hi' : i < 16 := hi'
  interval_cases i <;> rfl

/-- With an input byte in the upper half of `XMM0`, the byte stays there. -/
theorem movqXmm_not_architectural : ∃ s' l w', Runs (body quietSession)
    (movqXmm.handler process (shadow [80])) (freshWorld 1) ((), s', l) w' ∧
      ¬ movqXmm.WritesArchitectural process (process.peek (shadow [80])) (process.peek s') := by
  have hreturns : Returns (body quietSession) (fun _ => True) (movqXmm.handler process)
      (shadow [80]) :=
    handler_returns X86Reg.registers_documented rfl (X86Reg.shadow_wellFormed [80] .init)
      movqXmm_admitted (movqXmm_accessible _) nofun
  obtain ⟨⟨_, s', l⟩, w', hr, -, hiff⟩ := hreturns.achieves
    (movlzRegReg_writes_iff X86Reg.registers_documented (by decide) (by decide) (by decide))
      (freshWorld 1) trivial fun _ _ => trivial
  refine ⟨s', l, w', hr, fun hwrites => ?_⟩
  have hfresh := hiff.1 hwrites 8 (by decide) (by decide) (by decide)
  cases hfresh

end Movq

end PartialMove

/-! ### `VMOVLPS` and `VMOVLPD` -/

namespace Process

open Handler Stateful Bytes

variable {Reg : Type} [DecidableEq Reg] {T : Process Reg} {σ : Session} {ok : MethodCall → Prop}
variable {s : Shadow} {dst src : Reg} {m : MemArg Reg}

/-- The upper half of a vector register goes to another one. -/
theorem doMovRegReg_upper (hP : T.pin.Documented) (hdst : T.pin.regSize dst = 16)
    (hsrc : T.pin.regSize src = 16) :
    Ensures (body σ) ok (T.doMovRegReg dst src 8 8 8) s fun _ s' _ =>
      (∀ i < 16, T.peek s' (T.bytePlace dst i) =
        if i < 8 then T.peek s (T.bytePlace dst i) else T.peek s (T.bytePlace src i)) ∧
      ∀ k, k ∉ (Operand.reg dst).places T → T.peek s' k = T.peek s k := by
  have hlow (r : Reg) (hr : T.pin.regSize r = 16) : T.pin.regIsUpper8 r = false := by
    by_contra hup
    have h1 := (hP.upper8 r (by simpa using hup)).1
    omega
  have hviewd := hP.view_le dst
  have hviews := hP.view_le src
  have hcopies : Ensures (body σ) ok (T.doMovRegReg dst src 8 8 8) s _ :=
    doMovRegReg_copies (n := 8) hP (by decide) (by omega) (by omega)
      (fun h => absurd h (by decide)) s
  refine hcopies.mono fun _ s' _ hs' => ?_
  rw [if_neg (by decide), clear_nil] at hs'
  refine ⟨fun i hi => ?_, fun k hk => ?_⟩
  · split
    next hlt =>
        rw [hs', copy_range_of_ne]
        intro j hj h
        have := bytePlace_inj h
        omega
    next hge =>
        obtain ⟨j, rfl⟩ := Nat.exists_eq_add_of_le' (Nat.le_of_not_lt hge)
        have hinj (i : Nat) (_ : i < 8) (j : Nat) (_ : j < 8)
            (h : T.bytePlace dst (i + 8) = T.bytePlace dst (j + 8)) : i = j :=
          Nat.add_right_cancel (bytePlace_inj h)
        have hlater (i j : Nat) (_ : i < j) (_ : j < 8) :
            T.bytePlace dst (i + 8) ≠ T.bytePlace src (j + 8) := by
          intro h
          have := (Place.reg.inj h).2
          rw [hlow dst hdst, hlow src hsrc] at this
          omega
        rw [hs', copy_range _ hinj hlater (by omega)]
  · rw [hs', copy_range_of_ne]
    intro i hi h
    refine hk (Operand.mem_places_iff.2 ⟨i + 8, ?_, h.symm⟩)
    rw [Operand.size]
    omega

/-- **`VMOVLPS` and `VMOVLPD`.** The lower half of the destination is loaded, and the upper one
comes from the source. Nothing else is written: above the destination the bytes of a wider register
stay, which the machine zeroes. -/
theorem instrumentVmovl_bytes (hP : T.pin.Documented)
    (hb : T.builder = SymbolicExprBuilder.chain) (hs : s.WellFormed) (hm : m.OverGr T)
    (hsize : m.size = 8) (hdst : T.pin.regSize dst = 16) (hsrc : T.pin.regSize src = 16)
    (hready : T.Tracked dst ∧ T.Tracked src ∧ T.Addressed m) :
    Achieves (body σ) exactly (T.instrumentVmovlRegRegMem dst src m) s fun _ s' _ =>
      (∀ i < 16, T.peek s' (T.bytePlace dst i) =
        if i < 8 then T.peek s (memPlace m.addr i) else T.peek s (T.bytePlace src i)) ∧
      ∀ k, k ∉ (Operand.reg dst).places T →
        T.peek s' k = T.peek s k ∨ k ∈ m.places T ∧ ¬ Symbolic (T.peek s) k ∧
          T.peek s' k = none := by
  have hapart (k : Place Reg) (hk : k ∈ m.places T) : k ∉ (Operand.reg dst).places T := by
    intro hplace
    obtain ⟨i, -, rfl⟩ := Operand.mem_places_iff.1 hplace
    exact hm.bytePlace_notMem hP hdst i hk
  have hbytes : KeepsBytes σ exactly (T.doMovRegReg dst src 8 8 8) :=
    moveBytes_keepsBytes (fun i => getExprFromRegByte_givesByte _ _)
      (fun i _ hx => setExprToRegByte_keepsBytes _ _ hx) _
  unfold instrumentVmovlRegRegMem
  rw [if_pos hdst]
  refine Achieves.bind ((doMovRegReg_returns hP hready.1 hready.2.1 8 8 8).returns.achieves
    ((doMovRegReg_upper hP hdst hsrc).and (hbytes s hs)))
    fun _ s₁ _ ⟨⟨hupper, hother⟩, hs₁⟩ => ?_
  refine ((doMovRegMem_returns hP hb hs₁ hready.1 hready.2.2 0).achieves
    (doMovRegMem_bytes hP hb hs₁ hm (by omega) (by omega) hdst)).mono
      fun _ s' _ ⟨hload, hrest⟩ => ⟨fun i hi => ?_, fun k hk => ?_⟩
  · rw [hload i]
    by_cases hlt : i < 8
    · rw [if_pos (by omega), if_pos hlt, Nat.sub_zero]
      exact hother _ fun hplace => nomatch (Operand.mem_places_iff.1 hplace).choose_spec.2
    · rw [if_neg (by omega), hupper i hi]
      simp only [if_neg hlt]
  · rcases hrest k hk with hsame | ⟨hplace, hnot, hnone⟩
    · exact .inl (hsame.trans (hother k hk))
    · have hsame := hother k (hapart k hplace)
      rw [Symbolic, hsame] at hnot
      exact .inr ⟨hplace, hnot, hnone⟩

end Process

end Qsym
