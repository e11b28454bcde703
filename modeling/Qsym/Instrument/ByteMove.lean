import Qsym.Instrument.Moving

/-!
# Qsym.Instrument.ByteMove

`MOV`, `MOVS`, `STOS`, `PUSH`, `POP` and `XCHG`: what each place holds afterwards. The
handlers copy byte by byte, which is what the machine does as long as the destination does
not begin inside the element that is copied (`Overlaps`). They concretise the pointers they
use first, so the pointers lose their expressions, and a register of an address loses what
does not depend on the input. `XCHG` goes through the expressions of whole operands, so its
bytes are expressions with the same values.
-/

namespace Qsym

open Procedure

/-- The handlers that move bytes as they are, by their operands. -/
inductive MoveForm (Reg : Type)
  | movRegReg (dst src : Reg)
  | movRegImm (dst : Reg) (imm : Addr)
  | movRegMem (dst : Reg) (m : MemArg Reg)
  | movMemReg (m : MemArg Reg) (src : Reg)
  | movMemImm (m : MemArg Reg) (imm : Addr)
  | movs (srcAddr dstAddr : Addr) (size : Nat)
  | stos (dstAddr : Addr) (src : Reg)
  | pushReg (dstAddr : Addr) (dstSize : Nat) (src : Reg)
  | pushImm (dstAddr : Addr) (dstSize : Nat)
  | pushMem (dstAddr : Addr) (m : MemArg Reg)
  | popReg (dst : Reg) (srcAddr : Addr) (srcSize : Nat)
  | popMem (m : MemArg Reg) (srcAddr : Addr)
  | xchgRegReg (dst src : Reg)
  | xchgRegMem (dst : Reg) (m : MemArg Reg)
  | xchgMemReg (m : MemArg Reg) (src : Reg)

namespace MoveForm

open Handler
open Process (Mapped)

variable {Reg : Type} [DecidableEq Reg] (T : Process Reg)

def handler : MoveForm Reg → Handler Reg Unit
  | movRegReg dst src => T.instrumentMovRegReg dst src
  | movRegImm dst imm => T.instrumentMovRegImm dst imm
  | movRegMem dst m => T.instrumentMovRegMem dst m
  | movMemReg m src => T.instrumentMovMemReg m src
  | movMemImm m imm => T.instrumentMovMemImm m imm
  | movs srcAddr dstAddr size => T.instrumentMovs srcAddr dstAddr size
  | stos dstAddr src => T.instrumentStos dstAddr src
  | pushReg dstAddr dstSize src => T.instrumentPushReg dstAddr dstSize src
  | pushImm dstAddr dstSize => T.instrumentPushImm dstAddr dstSize
  | pushMem dstAddr m => T.instrumentPushMem dstAddr m
  | popReg dst srcAddr srcSize => T.instrumentPopReg dst srcAddr srcSize
  | popMem m srcAddr => T.instrumentPopMem m srcAddr
  | xchgRegReg dst src => T.instrumentXchgRegReg dst src
  | xchgRegMem dst m => T.instrumentXchgRegMem dst m
  | xchgMemReg m src => T.instrumentXchgMemReg m src

omit [DecidableEq Reg] in
/-- The destinations, each with its source; an immediate is none. -/
def moves : MoveForm Reg → List (Operand Reg × Option (Operand Reg))
  | movRegReg dst src => [(.reg dst, some (.reg src))]
  | movRegImm dst _ => [(.reg dst, none)]
  | movRegMem dst m => [(.reg dst, some (.mem m.addr m.size))]
  | movMemReg m src => [(.mem m.addr m.size, some (.reg src))]
  | movMemImm m _ => [(.mem m.addr m.size, none)]
  | movs srcAddr dstAddr size => [(.mem dstAddr size, some (.mem srcAddr size))]
  | stos dstAddr src => [(.mem dstAddr (T.pin.regSize src), some (.reg src))]
  | pushReg dstAddr dstSize src => [(.mem dstAddr dstSize, some (.reg src))]
  | pushImm dstAddr dstSize => [(.mem dstAddr dstSize, none)]
  | pushMem dstAddr m => [(.mem dstAddr m.size, some (.mem m.addr m.size))]
  | popReg dst srcAddr srcSize => [(.reg dst, some (.mem srcAddr srcSize))]
  | popMem m srcAddr => [(.mem m.addr m.size, some (.mem srcAddr m.size))]
  | xchgRegReg dst src => [(.reg dst, some (.reg src)), (.reg src, some (.reg dst))]
  | xchgRegMem dst m =>
      [(.reg dst, some (.mem m.addr m.size)), (.mem m.addr m.size, some (.reg dst))]
  | xchgMemReg m src =>
      [(.mem m.addr m.size, some (.reg src)), (.reg src, some (.mem m.addr m.size))]

omit [DecidableEq Reg] in
/-- The pointers that are concretised. -/
def pointers : MoveForm Reg → List Reg
  | movs .. => [T.pin.regGsi, T.pin.regGdi]
  | stos .. => [T.pin.regGdi]
  | pushReg .. | pushImm .. | pushMem .. | popReg .. | popMem .. => [T.pin.regStackPtr]
  | _ => []

omit [DecidableEq Reg] in
def pointerPlaces (form : MoveForm Reg) : List (Place Reg) :=
  (form.pointers T).flatMap fun r => (Operand.reg r).places T

/-- The places of the address that is made concrete. -/
def addressPlaces : MoveForm Reg → List (Place Reg)
  | movRegMem _ m | movMemReg m _ | movMemImm m _ | pushMem _ m | popMem m _ => m.places T
  | _ => []

omit [DecidableEq Reg] in
/-- The operands go through whole expressions. -/
def exchanges : MoveForm Reg → Bool
  | xchgRegReg .. | xchgRegMem .. | xchgMemReg .. => true
  | _ => false

omit [DecidableEq Reg] in
/-- The destination begins inside the element that is copied. -/
def Overlaps : MoveForm Reg → Prop
  | movs srcAddr dstAddr size => 0 < (dstAddr - srcAddr).toNat ∧ (dstAddr - srcAddr).toNat < size
  | pushMem dstAddr m => 0 < (dstAddr - m.addr).toNat ∧ (dstAddr - m.addr).toNat < m.size
  | popMem m srcAddr => 0 < (m.addr - srcAddr).toNat ∧ (m.addr - srcAddr).toNat < m.size
  | _ => False

omit [DecidableEq Reg] in
/-- What the machine promises: operands have some bytes, and source and destination have
equally many. -/
def Sized (form : MoveForm Reg) : Prop :=
  ∀ p ∈ form.moves T, (0 < p.1.size T ∧ p.1.size T ≤ 2 ^ 64) ∧ ∀ x, p.2 = some x →
    x.size T = p.1.size T

/-- The registers have cells, the address can be read, and a byte that is copied to memory has a
page. -/
def Accessible (s : Shadow) : MoveForm Reg → Prop
  | movRegReg dst src | xchgRegReg dst src => T.Tracked dst ∧ T.Tracked src
  | movRegImm dst _ => T.Tracked dst
  | movRegMem dst m => T.Tracked dst ∧ T.Addressed m
  | movMemReg m src => T.Tracked src ∧ T.Addressed m ∧ Mapped s.memory m.addr m.size
  | movMemImm m _ => T.Addressed m
  | movs _ dstAddr size =>
      T.Tracked T.pin.regGsi ∧ T.Tracked T.pin.regGdi ∧ Mapped s.memory dstAddr size
  | stos dstAddr src =>
      T.Tracked T.pin.regGdi ∧ T.Tracked src ∧ Mapped s.memory dstAddr (T.pin.regSize src)
  | pushReg dstAddr dstSize src =>
      T.Tracked T.pin.regStackPtr ∧ T.Tracked src ∧ Mapped s.memory dstAddr dstSize
  | pushImm _ _ => T.Tracked T.pin.regStackPtr
  | pushMem dstAddr m =>
      T.Tracked T.pin.regStackPtr ∧ T.Addressed m ∧ Mapped s.memory dstAddr m.size
  | popReg dst _ _ => T.Tracked T.pin.regStackPtr ∧ T.Tracked dst
  | popMem m _ => T.Tracked T.pin.regStackPtr ∧ T.Addressed m ∧ Mapped s.memory m.addr m.size
  | xchgRegMem r m | xchgMemReg m r => T.Tracked r ∧ Mapped s.memory m.addr m.size

omit [DecidableEq Reg] in
/-- The builder takes part: an address is made concrete, or operands go through expressions. -/
def builds : MoveForm Reg → Bool
  | movRegMem .. | movMemReg .. | movMemImm .. | pushMem .. | popMem .. => true
  | xchgRegReg .. | xchgRegMem .. | xchgMemReg .. => true
  | _ => false

/-- Every byte is what was there before, and nothing else changes. -/
structure CopiesExactly (form : MoveForm Reg) (v v' : ShadowMap Reg) : Prop where
  copied : ∀ d x, (d, some x) ∈ form.moves T → ∀ i < d.size T, v' (d.place T i) = v (x.place T i)
  emptied : ∀ d, (d, none) ∈ form.moves T → ∀ i < d.size T, v' (d.place T i) = none
  upper : ∀ p ∈ form.moves T, ∀ k ∈ p.1.upper T, v' k = none
  other : ∀ k, (∀ p ∈ form.moves T, k ∉ p.1.written T) → v' k = v k

/-- What has been at `k` is left, unless it is a byte of the address that did not depend on the
input. -/
def Left (form : MoveForm Reg) (w : ShadowMap Reg) (k : Place Reg) (x : Option Expr) : Prop :=
  x = w k ∨ k ∈ form.addressPlaces T ∧ ¬ Symbolic w k ∧ x = none

/-- The pointers are empty, and the address is concrete. -/
def Ready (form : MoveForm Reg) (v u : ShadowMap Reg) : Prop :=
  ∀ k, form.Left T (Process.clear v (form.pointerPlaces T)) k (u k)

/-- Every byte is what was there before, except that the pointers are empty. -/
structure Copies (form : MoveForm Reg) (v v' : ShadowMap Reg) : Prop where
  copied : ∀ d x, (d, some x) ∈ form.moves T → ∀ i < d.size T,
    if form.exchanges then T.Exchanged (Process.clear v (form.pointerPlaces T)) (x.place T i)
      (v' (d.place T i))
    else form.Left T (Process.clear v (form.pointerPlaces T)) (x.place T i) (v' (d.place T i))
  emptied : ∀ d, (d, none) ∈ form.moves T → ∀ i < d.size T, v' (d.place T i) = none
  upper : ∀ p ∈ form.moves T, ∀ k ∈ p.1.upper T, v' k = none
  other : ∀ k, (∀ p ∈ form.moves T, k ∉ p.1.written T) →
    form.Left T (Process.clear v (form.pointerPlaces T)) k (v' k)

end MoveForm

/-! ### Copies that do not run into themselves -/

namespace Operand

variable {Reg : Type} {i j n : Nat} {dst src : Addr}

/-- Unless the destination begins inside the element, no byte is overwritten before it is
read. -/
theorem memPlace_ne (hn : n ≤ 2 ^ 64)
    (hover : ¬ (0 < (dst - src).toNat ∧ (dst - src).toNat < n)) (hij : i < j) (hj : j < n) :
    (Process.memPlace dst i : Place Reg) ≠ Process.memPlace src j := by
  intro h
  have heq : dst + BitVec.ofNat 64 i = src + BitVec.ofNat 64 j := Place.mem.inj h
  have hdiff : (dst - src).toNat = j - i := by bv_omega
  omega

end Operand

namespace MoveForm

open Handler Stateful Bytes

variable {Reg : Type} [DecidableEq Reg] {T : Process Reg} {form : MoveForm Reg}
variable {v u : ShadowMap Reg} {d x : Operand Reg}

omit [DecidableEq Reg] in
theorem later_of_reg (hP : T.pin.Documented) (hd : d.size T ≤ 2 ^ 64) (hx : x.size T = d.size T)
    (hreg : ∀ addr addr' n n', ¬ (d = .mem addr n ∧ x = .mem addr' n')) (i j : Nat) (hij : i < j)
    (hj : j < d.size T) : d.place T i ≠ x.place T j := by
  rcases Operand.place_eq_or_ne hP hx.symm hreg with heq | hne
  · rw [← heq j]
    intro h
    exact hij.ne (Operand.place_inj hd (hij.trans hj) hj h)
  · exact hne i (hij.trans hj) j (hx ▸ hj)

omit [DecidableEq Reg] in
theorem Sized.single (hsize : form.Sized T) (hmoves : form.moves T = [(d, some x)]) :
    0 < d.size T ∧ d.size T ≤ 2 ^ 64 ∧ x.size T = d.size T := by
  obtain ⟨⟨hpos, hle⟩, hx⟩ := hsize (d, some x) (by simp [hmoves])
  exact ⟨hpos, hle, hx x rfl⟩

theorem Ready.of_eq (h : u = Process.clear v (form.pointerPlaces T)) : form.Ready T v u :=
  fun k => .inl (congrFun h k)

/-- Copying a source that is not overwritten before it is read. -/
theorem copies_of_copy (hP : T.pin.Documented) (hmoves : form.moves T = [(d, some x)])
    (hex : form.exchanges = false) (hsize : form.Sized T)
    (hlater : ∀ i j, i < j → j < d.size T → d.place T i ≠ x.place T j)
    (hu : form.Ready T v u) :
    form.Copies T v (copy ((List.range (d.size T)).map fun i => (d.place T i, x.place T i))
      (Process.clear u (d.upper T))) := by
  obtain ⟨-, hd, hx⟩ := hsize.single hmoves
  have hkept (k : Place Reg) (hk : k ∉ d.places T) :
      copy ((List.range (d.size T)).map fun i => (d.place T i, x.place T i))
        (Process.clear u (d.upper T)) k = Process.clear u (d.upper T) k := by
    refine copy_range_of_ne _ fun i hi h => hk ?_
    exact Operand.mem_places_iff.2 ⟨i, hi, h.symm⟩
  refine ⟨fun d' x' h i hi => ?_, fun d' h => ?_, fun p hp k hk => ?_, fun k hk => ?_⟩
  · rw [hmoves, List.mem_singleton] at h
    cases h
    rw [hex, if_neg (by decide),
      copy_range _ (fun i hi j hj => Operand.place_inj hd hi hj) hlater hi,
      Process.clear_of_notMem (Operand.place_notMem_upper hP hx (hx ▸ hi))]
    exact hu _
  · simp [hmoves] at h
  · rw [hmoves, List.mem_singleton] at hp
    subst hp
    rw [hkept k, Process.clear_of_mem hk]
    intro hmem
    obtain ⟨i, hi, rfl⟩ := Operand.mem_places_iff.1 hmem
    exact Operand.place_notMem_upper hP rfl hi hk
  · have hk := hk (d, some x) (by simp [hmoves])
    rw [Operand.written_eq, List.mem_append, not_or] at hk
    rw [hkept k hk.1, Process.clear_of_notMem hk.2]
    exact hu k

/-- An immediate leaves nothing. -/
theorem copies_of_clear (hmoves : form.moves T = [(d, none)])
    (hu : form.Ready T v u) {v' : ShadowMap Reg} (hempty : ∀ k ∈ d.written T, v' k = none)
    (hsame : ∀ k, k ∉ d.written T → v' k = u k) : form.Copies T v v' := by
  refine ⟨fun d' x' h i hi => ?_, fun d' h i hi => ?_, fun p hp k hk => ?_, fun k hk => ?_⟩
  · simp [hmoves] at h
  · rw [hmoves, List.mem_singleton] at h
    cases h
    refine hempty _ ?_
    rw [Operand.written_eq]
    exact List.mem_append_left _ (Operand.mem_places_iff.2 ⟨i, hi, rfl⟩)
  · rw [hmoves, List.mem_singleton] at hp
    subst hp
    refine hempty k ?_
    rw [Operand.written_eq]
    exact List.mem_append_right _ hk
  · rw [hsame k (hk (d, none) (by simp [hmoves]))]
    exact hu k

end MoveForm

/-! ### The handlers -/

namespace MoveForm

open Handler Stateful Bytes

variable {Reg : Type} [DecidableEq Reg] {T : Process Reg} {form : MoveForm Reg}
variable {σ : Session} {ok : MethodCall → Prop} {v : ShadowMap Reg} {s : Shadow}
variable {dst src r : Reg} {dstAddr srcAddr : Addr} {n : Nat}

section Loops

variable (hP : T.pin.Documented) (hex : form.exchanges = false) (hsize : form.Sized T)
  (hu : form.Ready T v (T.peek s))
include hP hex hsize hu

theorem regToMem_copies (hmoves : form.moves T = [(.mem dstAddr n, some (.reg src))]) :
    Ensures (body σ) ok (forEach (fun i => Process.moveByte (T.getExprFromRegByte src i)
      fun e => setExprToMemByte (dstAddr + BitVec.ofNat 64 i) e) (List.range n)) s
      fun _ s' _ => form.Copies T v (T.peek s') := by
  obtain ⟨hpos, hd, hx⟩ := hsize.single hmoves
  obtain rfl : T.pin.regSize src = n := hx
  have hview : (if T.pin.regIsUpper8 src then 1 else 0) + (T.pin.regSize src + 0) ≤
      T.pin.regSize (T.pin.regFullRegName src) := hP.view_le src
  refine (Process.movRegToMem_copies hpos hview s).mono fun _ s' _ hs' => ?_
  have hcopies := copies_of_copy hP hmoves hex hsize (later_of_reg hP hd rfl (by simp)) hu
  rw [show (Operand.mem dstAddr _).upper T = [] from rfl, Process.clear_nil] at hcopies
  rw [hs']
  exact hcopies

theorem memToReg_copies (hmoves : form.moves T = [(.reg dst, some (.mem srcAddr n))]) :
    Ensures (body σ) ok (forEach (fun i =>
      Process.moveByte (getExprFromMemByte (srcAddr + BitVec.ofNat 64 i))
        fun e => T.setExprToRegByte dst e i) (List.range n)) s
      fun _ s' _ => form.Copies T v (T.peek s') := by
  obtain ⟨hpos, hd, hx⟩ := hsize.single hmoves
  obtain rfl : n = T.pin.regSize dst := hx
  have hview : (if T.pin.regIsUpper8 dst then 1 else 0) + (T.pin.regSize dst + 0) ≤
      T.pin.regSize (T.pin.regFullRegName dst) := hP.view_le dst
  refine (Process.movMemToReg_copies hP hpos hview s).mono fun _ s' _ hs' => ?_
  rw [hs']
  exact copies_of_copy hP hmoves hex hsize (later_of_reg hP hd rfl (by simp)) hu

theorem memToMem_copies (hmoves : form.moves T = [(.mem dstAddr n, some (.mem srcAddr n))])
    (hover : ¬ (0 < (dstAddr - srcAddr).toNat ∧ (dstAddr - srcAddr).toNat < n)) :
    Ensures (body σ) ok (forEach (fun i =>
      Process.moveByte (getExprFromMemByte (srcAddr + BitVec.ofNat 64 i))
        fun e => setExprToMemByte (dstAddr + BitVec.ofNat 64 i) e) (List.range n) :
          Handler Reg Unit) s
      fun _ s' _ => form.Copies T v (T.peek s') := by
  obtain ⟨hpos, hd, -⟩ := hsize.single hmoves
  refine (Process.movMemToMem_copies (T := T) hpos dstAddr srcAddr s).mono fun _ s' _ hs' => ?_
  have hcopies := copies_of_copy hP hmoves hex hsize (fun i j => Operand.memPlace_ne hd hover) hu
  rw [show (Operand.mem dstAddr n).upper T = [] from rfl, Process.clear_nil] at hcopies
  rw [hs']
  exact hcopies

end Loops

theorem clearMem_copies (hmoves : form.moves T = [(.mem dstAddr n, none)])
    (hu : form.Ready T v (T.peek s)) :
    Ensures (body σ) ok (clearExprFromMem dstAddr n : Handler Reg Unit) s
      fun _ s' _ => form.Copies T v (T.peek s') := by
  refine (Process.clearExprFromMem_cleared (T := T) dstAddr n).mono
    fun _ s' _ ⟨_, _, hclear, _⟩ => ?_
  have hw : (Operand.mem dstAddr n).written T = (Operand.mem dstAddr n).places T :=
    List.append_nil _
  refine copies_of_clear hmoves hu (fun k hk => hclear.empty k ?_) fun k hk => hclear.same k ?_
  · rwa [hw] at hk
  · rwa [hw] at hk

/-! ### What comes before a copy -/

section Prelude

variable (hP : T.pin.Documented) (hb : T.builder = SymbolicExprBuilder.chain) (hs : s.WellFormed)
include hP hb hs

variable (form)

theorem pointer_cleared (hr : T.pin.regFullRegName r = r) (hpointers : form.pointers T = [r]) :
    Ensures (body σ) ok (T.concretizeReg r) s fun _ s' _ =>
      s'.WellFormed ∧ T.peek s' = Process.clear (T.peek s) (form.pointerPlaces T) := by
  rw [pointerPlaces, hpointers, List.flatMap_singleton]
  exact Process.concretizeReg_clears hP hb hs hr

theorem ready_of_address {m : MemArg Reg} (haddress : form.addressPlaces T = m.places T)
    (hv : T.peek s = Process.clear v (form.pointerPlaces T)) :
    Ensures (body σ) ok (T.makeAddrConcrete m) s fun _ s' _ => form.Ready T v (T.peek s') := by
  refine (Process.makeAddrConcrete_loses hP hb hs m).mono fun _ s' _ ⟨_, hlose⟩ k => ?_
  rw [Left, ← hv, haddress]
  exact hlose k

end Prelude

/-! ### The handlers that copy -/

section Copying

variable (hP : T.pin.Documented) (hN : T.pin.Named) (hb : T.builder = SymbolicExprBuilder.chain)
  (hs : s.WellFormed) (hsize : form.Sized T) (hover : ¬ form.Overlaps)
include hP hN hb hs hsize hover

/-- The handlers that move bytes one by one do what they should. -/
theorem handler_copies (hex : form.exchanges = false) :
    Ensures (body σ) ok (form.handler T) s fun _ s' _ => form.Copies T (T.peek s) (T.peek s') := by
  cases form with
  | movRegReg dst src =>
      obtain ⟨hpos, hd, hx⟩ := hsize.single (d := .reg dst) (x := .reg src) rfl
      have hdst : (if T.pin.regIsUpper8 dst then 1 else 0) + (T.pin.regSize dst + 0) ≤
          T.pin.regSize (T.pin.regFullRegName dst) := hP.view_le dst
      have hsame : T.pin.regSize src = T.pin.regSize dst := hx
      have hsrc : (if T.pin.regIsUpper8 src then 1 else 0) + (T.pin.regSize dst + 0) ≤
          T.pin.regSize (T.pin.regFullRegName src) := hsame ▸ hP.view_le src
      refine (Process.doMovRegReg_copies hP hpos hdst hsrc (fun _ => rfl) s).mono
        fun _ s' _ hs' => ?_
      rw [hs']
      exact copies_of_copy hP rfl hex hsize (later_of_reg hP hd hx (by simp))
        (.of_eq (Process.clear_nil _).symm)
  | movRegImm dst imm =>
      refine (Process.clearExprFromReg_cleared hP dst).mono ?_
      rintro _ s' _ ⟨_, _, hclear, _⟩
      refine copies_of_clear rfl (.of_eq (Process.clear_nil _).symm) (fun k hk => ?_) fun k hk => ?_
      · exact hclear.empty k ((Operand.mem_dropped_iff hP (.reg dst) k).2 hk)
      · exact hclear.same k (mt (Operand.mem_dropped_iff hP (.reg dst) k).1 hk)
  | movRegMem dst m =>
      refine (ready_of_address (.movRegMem dst m) hP hb hs rfl (Process.clear_nil _).symm).bind
        fun _ s₁ _ hu => ?_
      exact memToReg_copies hP hex hsize hu rfl
  | movMemReg m src =>
      refine (ready_of_address (.movMemReg m src) hP hb hs rfl (Process.clear_nil _).symm).bind
        fun _ s₁ _ hu => ?_
      exact regToMem_copies hP hex hsize hu rfl
  | movMemImm m imm =>
      refine (ready_of_address (.movMemImm m imm) hP hb hs rfl (Process.clear_nil _).symm).bind
        fun _ s₁ _ hu => ?_
      exact clearMem_copies rfl hu
  | movs srcAddr dstAddr size =>
      refine (Process.concretizeReg_clears hP hb hs hN.regGsi).bind ?_
      rintro _ s₁ _ ⟨hs₁, h₁⟩
      refine (Process.concretizeReg_clears hP hb hs₁ hN.regGdi).bind ?_
      rintro _ s₂ _ ⟨_, h₂⟩
      refine memToMem_copies hP hex hsize (.of_eq ?_) rfl hover
      rw [h₂, h₁, Process.clear_clear]
      simp only [pointerPlaces, pointers, List.flatMap_cons, List.flatMap_nil, List.append_nil]
  | stos dstAddr src =>
      refine (pointer_cleared (.stos dstAddr src) hP hb hs hN.regGdi rfl).bind ?_
      rintro _ s₁ _ ⟨_, h₁⟩
      have hu : Ready T (.stos dstAddr src) (T.peek s) (T.peek s₁) := .of_eq h₁
      exact regToMem_copies hP hex hsize hu rfl
  | pushReg dstAddr dstSize src =>
      refine (pointer_cleared (.pushReg dstAddr dstSize src) hP hb hs hN.regStackPtr rfl).bind ?_
      rintro _ s₁ _ ⟨_, h₁⟩
      have hu : Ready T (.pushReg dstAddr dstSize src) (T.peek s) (T.peek s₁) := .of_eq h₁
      exact regToMem_copies hP hex hsize hu rfl
  | pushImm dstAddr dstSize =>
      refine (pointer_cleared (.pushImm dstAddr dstSize) hP hb hs hN.regStackPtr rfl).bind ?_
      rintro _ s₁ _ ⟨_, h₁⟩
      have hu : Ready T (.pushImm dstAddr dstSize) (T.peek s) (T.peek s₁) := .of_eq h₁
      exact clearMem_copies rfl hu
  | pushMem dstAddr m =>
      refine (pointer_cleared (.pushMem dstAddr m) hP hb hs hN.regStackPtr rfl).bind ?_
      rintro _ s₁ _ ⟨hs₁, h₁⟩
      refine (ready_of_address (.pushMem dstAddr m) hP hb hs₁ rfl h₁).bind fun _ s₂ _ hu => ?_
      exact memToMem_copies hP hex hsize hu rfl hover
  | popReg dst srcAddr srcSize =>
      refine (pointer_cleared (.popReg dst srcAddr srcSize) hP hb hs hN.regStackPtr rfl).bind ?_
      rintro _ s₁ _ ⟨_, h₁⟩
      have hu : Ready T (.popReg dst srcAddr srcSize) (T.peek s) (T.peek s₁) := .of_eq h₁
      exact memToReg_copies hP hex hsize hu rfl
  | popMem m srcAddr =>
      refine (pointer_cleared (.popMem m srcAddr) hP hb hs hN.regStackPtr rfl).bind ?_
      rintro _ s₁ _ ⟨hs₁, h₁⟩
      refine (ready_of_address (.popMem m srcAddr) hP hb hs₁ rfl h₁).bind fun _ s₂ _ hu => ?_
      exact memToMem_copies hP hex hsize hu rfl hover
  | xchgRegReg => cases hex
  | xchgRegMem => cases hex
  | xchgMemReg => cases hex

end Copying

/-! ### The handlers that exchange -/

section Exchanging

variable {a b : Operand Reg} {v' : ShadowMap Reg}

theorem copies_of_exchanges (hmoves : form.moves T = [(a, some b), (b, some a)])
    (hex : form.exchanges = true) (hpointers : form.pointers T = []) (h : T.Exchanges v v' a b) :
    form.Copies T v v' := by
  have hclear : Process.clear v (form.pointerPlaces T) = v := by
    rw [pointerPlaces, hpointers, List.flatMap_nil, Process.clear_nil]
  refine ⟨fun d x hdx i hi => ?_, fun d hd => ?_, fun p hp k hk => ?_, fun k hk => .inl ?_⟩
  · rw [hex, if_pos rfl, hclear]
    simp only [hmoves, List.mem_cons, List.not_mem_nil, or_false] at hdx
    rcases hdx with hdx | hdx
    · cases hdx
      exact h.left i hi
    · cases hdx
      exact h.right i hi
  · simp [hmoves] at hd
  · simp only [hmoves, List.mem_cons, List.not_mem_nil, or_false] at hp
    rcases hp with rfl | rfl
    · exact h.upper k (.inl hk)
    · exact h.upper k (.inr hk)
  · rw [hclear]
    exact h.other k (hk (a, some b) (by simp [hmoves])) (hk (b, some a) (by simp [hmoves]))

variable (hP : T.pin.Documented) (hb : T.builder = SymbolicExprBuilder.chain) (hs : s.WellFormed)
  (hsize : form.Sized T)
include hP hb hs hsize

/-- The handlers that exchange operands do what they should. -/
theorem handler_exchanges (hex : form.exchanges = true) :
    Ensures (body σ) (FoldsExactly fun _ => True) (form.handler T) s
      fun _ s' _ => form.Copies T (T.peek s) (T.peek s') := by
  have hv := Process.byteValue_lt (T := T) hs
  cases form with
  | xchgRegReg dst src =>
      obtain ⟨⟨-, hle⟩, hx⟩ := hsize (.reg dst, some (.reg src)) (by simp [moves])
      have hx := hx _ rfl
      refine (Process.get_both hP hb hx (by simp) hs).bind fun x s₁ _ h₁ => ?_
      refine h₁.bind fun y s₂ _ ⟨hsrc, hdst, hother⟩ => ?_
      refine (Process.set_both hP hb hx.symm hle (by simp) hv hdst hsrc fun k hkd hks => ?_).bind
        fun _ s₃ _ h₃ => h₃.mono fun _ s' _ h => copies_of_exchanges rfl rfl rfl h
      exact hother k hks hkd
  | xchgRegMem dst m =>
      obtain ⟨⟨-, hle⟩, hx⟩ := hsize (.reg dst, some (.mem m.addr m.size)) (by simp [moves])
      have hx := hx _ rfl
      refine (Process.get_both hP hb hx (by simp) hs).bind fun x s₁ _ h₁ => ?_
      refine h₁.bind fun y s₂ _ ⟨hmem, hdst, hother⟩ => ?_
      exact (Process.set_both hP hb hx (hx.trans_le hle) (by simp) hv hmem hdst hother).bind
        fun _ s₃ _ h₃ => h₃.mono fun _ s' _ h => copies_of_exchanges rfl rfl rfl h.symm
  | xchgMemReg m src =>
      obtain ⟨⟨-, hle⟩, hx⟩ := hsize (.mem m.addr m.size, some (.reg src)) (by simp [moves])
      have hx := hx _ rfl
      refine (Process.get_both hP hb hx.symm (by simp) hs).bind fun x s₁ _ h₁ => ?_
      refine h₁.bind fun y s₂ _ ⟨hmem, hsrc, hother⟩ => ?_
      refine (Process.set_both hP hb hx (hx.trans_le hle) (by simp) hv hsrc hmem
        fun k hks hkm => ?_).bind
        fun _ s₃ _ h₃ => h₃.mono fun _ s' _ h => copies_of_exchanges rfl rfl rfl h.symm
      exact hother k hkm hks
  | _ => cases hex

end Exchanging

/-! ### The handlers return -/

section Returning

variable (hP : T.pin.Documented) (hb : T.builder = SymbolicExprBuilder.chain) (hs : s.WellFormed)
include hP hb hs

/-- A pointer is concretised first. -/
theorem concretized_returns {p : Unit → Handler Reg Unit} (hr : T.Tracked r)
    (hp : ∀ s₁ : Shadow, s₁.WellFormed → s₁.memory = s.memory → Returns (body σ) ok (p ()) s₁) :
    Returns (body σ) ok (T.concretizeReg r >>= p) s :=
  Returns.bind (Process.concretizeReg_returns hP hb hs hr)
    ((Process.concretizeReg_concretized hP hb hs r).and (T.concretizeReg_keepsMemory r s))
    fun _ s₁ _ h => hp s₁ h.1.wellFormed h.2

/-- The address is made concrete first. -/
theorem addressed_returns {p : Unit → Handler Reg Unit} {m : MemArg Reg} (hm : T.Addressed m)
    (hok : ∀ c, ok c → exactly c)
    (hp : ∀ s₁ : Shadow, s₁.memory = s.memory → Returns (body σ) ok (p ()) s₁) :
    Returns (body σ) ok (T.makeAddrConcrete m >>= p) s :=
  Returns.bind (Total.weaken (Process.makeAddrConcrete_returns hP hb hs hm) hok)
    (T.makeAddrConcrete_keepsMemory m s) fun _ s₁ _ h => hp s₁ h

/-- Two operands are read, and each is written with what was read from the other. -/
theorem exchanged_returns {a b : Operand Reg} {p : Option Expr → Option Expr → Handler Reg Unit}
    (ha : T.Readable a) (hb' : T.Readable b)
    (hp : ∀ s₁ x y, s.memory.SamePages s₁.memory → T.Fits a x → T.Fits b y →
      Returns (body σ) exactly (p x y) s₁) :
    Returns (body σ) exactly (do
      let x ← a.get T
      let y ← b.get T
      p x y) s := by
  refine Returns.bind (Process.get_returns hP hb hs ha) (Process.get_carries hb hs hP a)
    fun x s₁ _ ⟨hread₁, hx⟩ => ?_
  refine Returns.bind (Process.get_returns hP hb hread₁.wellFormed hb')
    (Process.get_carries hb hread₁.wellFormed hP b) fun y s₂ _ ⟨hread₂, hy⟩ => ?_
  exact hp s₂ x y (hread₁.pages.trans hread₂.pages) hx.fits hy.fits

omit hs in
theorem set_set_returns {a b c d : Operand Reg} {x y : Option Expr} (hc : T.Writable s c)
    (hd : T.Writable s d) (hac : a.size T = c.size T) (hbd : b.size T = d.size T) (hx : T.Fits a x)
    (hy : T.Fits b y) : Returns (body σ) exactly (do
      c.set T x
      d.set T y) s :=
  Returns.bind (Process.set_fits_returns hP hb hc hac hx) (Process.set_pages c x)
    fun _ _ _ h => Process.set_fits_returns hP hb (hd.of_samePages h) hbd hy

/-- The handlers come to an end. -/
theorem handler_returns (hsize : form.Sized T) (haccess : form.Accessible T s)
    (hok : form.builds = true → ∀ c, ok c → exactly c) :
    Returns (body σ) ok (form.handler T) s := by
  have hreg {r : Reg} (hr : T.Tracked r) (i : Nat) (s : Shadow) :
      Achieves (body σ) ok (T.getExprFromRegByte r i) s fun _ s' _ => s' = s :=
    Process.getExprFromRegByte_returns hr i
  have hmem (addr : Addr) (i : Nat) (s : Shadow) : Achieves (body σ) ok
      (getExprFromMemByte (addr + BitVec.ofNat 64 i) : Handler Reg _) s fun _ s' _ => s' = s :=
    Process.getExprFromMemByte_returns _
  cases form with
  | movRegReg dst src =>
      exact (Process.doMovRegReg_returns hP haccess.1 haccess.2 0 0 _).returns
  | movRegImm dst imm => exact Process.clearExprFromReg_returns haccess
  | movRegMem dst m =>
      exact Total.weaken (Process.doMovRegMem_returns hP hb hs haccess.1 haccess.2 0) (hok rfl)
  | movMemReg m src =>
      exact Total.weaken (Process.doMovMemReg_returns hP hb hs haccess.1 haccess.2.1 haccess.2.2 0)
        (hok rfl)
  | movMemImm m imm =>
      exact addressed_returns hP hb hs haccess (hok rfl)
        fun _ _ => Process.clearExprFromMem_returns m.addr m.size
  | movs srcAddr dstAddr size =>
      refine concretized_returns hP hb hs haccess.1 fun s₁ hs₁ h₁ => ?_
      refine concretized_returns hP hb hs₁ haccess.2.1 fun s₂ _ h₂ => ?_
      exact (Process.toMem_returns (hmem srcAddr) ((h₂.trans h₁).symm ▸ haccess.2.2)).returns
  | stos dstAddr src =>
      refine concretized_returns hP hb hs haccess.1 fun s₁ _ h₁ => ?_
      exact (Process.toMem_returns (hreg haccess.2.1) (h₁.symm ▸ haccess.2.2)).returns
  | pushReg dstAddr dstSize src =>
      refine concretized_returns hP hb hs haccess.1 fun s₁ _ h₁ => ?_
      exact (Process.toMem_returns (hreg haccess.2.1) (h₁.symm ▸ haccess.2.2)).returns
  | pushImm dstAddr dstSize =>
      exact concretized_returns hP hb hs haccess
        fun _ _ _ => Process.clearExprFromMem_returns dstAddr dstSize
  | pushMem dstAddr m =>
      refine concretized_returns hP hb hs haccess.1 fun s₁ hs₁ h₁ => ?_
      refine addressed_returns hP hb hs₁ haccess.2.1 (hok rfl) fun s₂ h₂ => ?_
      exact (Process.toMem_returns (hmem m.addr) ((h₂.trans h₁).symm ▸ haccess.2.2)).returns
  | popReg dst srcAddr srcSize =>
      refine concretized_returns hP hb hs haccess.1 fun s₁ _ _ => ?_
      exact (Process.toReg_returns (hmem srcAddr) hP haccess.2 0 _).returns
  | popMem m srcAddr =>
      refine concretized_returns hP hb hs haccess.1 fun s₁ hs₁ h₁ => ?_
      refine addressed_returns hP hb hs₁ haccess.2.1 (hok rfl) fun s₂ h₂ => ?_
      exact (Process.toMem_returns (hmem srcAddr) ((h₂.trans h₁).symm ▸ haccess.2.2)).returns
  | xchgRegReg dst src =>
      have hx := (hsize (.reg dst, some (.reg src)) (by simp [moves])).2 _ rfl
      refine Total.weaken (exchanged_returns (a := .reg src) (b := .reg dst) hP hb hs haccess.2
        haccess.1 fun s₁ x y _ hsrc hdst => ?_) (hok rfl)
      exact set_set_returns (c := .reg dst) (d := .reg src) hP hb haccess.1 haccess.2 hx hx.symm
        hsrc hdst
  | xchgRegMem dst m =>
      have hx := (hsize (.reg dst, some (.mem m.addr m.size)) (by simp [moves])).2 _ rfl
      refine Total.weaken (exchanged_returns (a := .mem m.addr m.size) (b := .reg dst)
        hP hb hs trivial
        haccess.1 fun s₁ x y hpages hmem hdst => ?_) (hok rfl)
      exact set_set_returns (c := .mem m.addr m.size) (d := .reg dst) hP hb
        (Process.Mapped.of_samePages haccess.2 hpages) haccess.1 hx.symm hx hdst hmem
  | xchgMemReg m src =>
      have hx := (hsize (.mem m.addr m.size, some (.reg src)) (by simp [moves])).2 _ rfl
      refine Total.weaken (exchanged_returns (a := .mem m.addr m.size) (b := .reg src)
        hP hb hs trivial
        haccess.1 fun s₁ x y hpages hmem hsrc => ?_) (hok rfl)
      exact set_set_returns (c := .reg src) (d := .mem m.addr m.size) hP hb haccess.1
        (Process.Mapped.of_samePages haccess.2 hpages) hx.symm hx hmem hsrc

end Returning

/-- **Byte by byte, a move copies what was there before** as long as the destination does not
begin inside the element. The handlers that build nothing return in every world. -/
theorem handler_moves (hP : T.pin.Documented) (hN : T.pin.Named)
    (hb : T.builder = SymbolicExprBuilder.chain) (hs : s.WellFormed) (hsize : form.Sized T)
    (haccess : form.Accessible T s) (hover : ¬ form.Overlaps) :
    (Ensures (body σ) (fun c => form.exchanges = true → exactly c) (form.handler T) s
      fun _ s' _ => form.Copies T (T.peek s) (T.peek s')) ∧
    Achieves (body σ) (fun c => form.builds = true → exactly c) (form.handler T) s
      fun _ s' _ => form.Copies T (T.peek s) (T.peek s') := by
  have hcopies : Ensures (body σ) (fun c => form.exchanges = true → exactly c) (form.handler T) s
      fun _ s' _ => form.Copies T (T.peek s) (T.peek s') := by
    by_cases hex : form.exchanges = true
    · exact (handler_exchanges hP hb hs hsize hex).weaken fun c hc => hc hex
    · exact handler_copies hP hN hb hs hsize hover (by simpa using hex)
  have hbuilds : form.exchanges = true → form.builds = true := by
    intro h
    cases form with
    | xchgRegReg | xchgRegMem | xchgMemReg => rfl
    | _ => cases h
  refine ⟨hcopies, (handler_returns hP hb hs hsize haccess fun h c hc => hc h).achieves ?_⟩
  exact hcopies.weaken fun c hc hex => hc (hbuilds hex)

section Push

open Process (Mapped)
open X86Reg (process registers shadow)

/-- `PUSH RAX` with an input byte in `RAX` and one in `RSP`. -/
def pushRax : MoveForm X86Reg :=
  .pushReg 8 8 .rax

theorem pushRax_sized : pushRax.Sized process := by
  simp [Sized, moves, pushRax, Operand.size, X86Reg.process, X86Reg.registers, X86Reg.size]

theorem pushRax_mapped : Mapped Memory.onePage 8 8 := by
  intro a ha
  obtain ⟨i, hi, rfl⟩ := List.mem_map.1 ha
  have hpage : ∀ i < 8, addressToPageIndex (8 + BitVec.ofNat 64 i) = 0 := by decide
  rw [Memory.getPage, hpage i (List.mem_range.1 hi)]
  nofun

theorem pushRax_accessible : pushRax.Accessible process (shadow [0, 56]) := by
  unfold pushRax Accessible
  exact ⟨X86Reg.tracked (by decide), X86Reg.tracked (by decide), pushRax_mapped⟩

theorem handler_moves_pushRax : ∃ s' l w', Runs (body quietSession)
    (pushRax.handler process (shadow [0, 56])) (freshWorld 1) ((), s', l) w' ∧
      pushRax.Copies process (process.peek (shadow [0, 56])) (process.peek s') := by
  have h : Achieves (body quietSession) _ (pushRax.handler process) (shadow [0, 56]) _ :=
    (handler_moves X86Reg.registers_documented X86Reg.registers_named rfl
      (X86Reg.shadow_wellFormed [0, 56] .init) pushRax_sized pushRax_accessible nofun).2
  obtain ⟨⟨_, s', l⟩, w', hr, -, hcopies⟩ := h (freshWorld 1) trivial fun _ _ => nofun
  exact ⟨s', l, w', hr, hcopies⟩

/-- `PUSH` empties the stack pointer, which is none of its destinations. -/
theorem pushRax_not_exactly : ∃ s' l w', Runs (body quietSession)
    (pushRax.handler process (shadow [0, 56])) (freshWorld 1) ((), s', l) w' ∧
      ¬ pushRax.CopiesExactly process (process.peek (shadow [0, 56])) (process.peek s') := by
  have hreturns : Returns (body quietSession) (fun _ => True) (pushRax.handler process)
      (shadow [0, 56]) :=
    handler_returns X86Reg.registers_documented rfl (X86Reg.shadow_wellFormed [0, 56] .init)
      pushRax_sized pushRax_accessible nofun
  obtain ⟨⟨_, s', l⟩, w', hr, -, hcopies⟩ := hreturns.achieves
    (handler_copies X86Reg.registers_documented X86Reg.registers_named rfl
      (X86Reg.shadow_wellFormed [0, 56] .init) pushRax_sized nofun rfl)
        (freshWorld 1) trivial fun _ _ => trivial
  refine ⟨s', l, w', hr, fun hexact => ?_⟩
  have hout : ∀ p ∈ pushRax.moves process, (Place.reg X86Reg.rsp 0) ∉ p.1.written process := by
    decide
  have hsome : process.peek (shadow [0, 56]) (.reg .rsp 0) = some (.read 0) := rfl
  rcases hcopies.other _ hout with hleft | ⟨hmem, -⟩
  · rw [hexact.other _ hout, Process.clear_of_mem (by decide), hsome] at hleft
    cases hleft
  · cases hmem

end Push

end MoveForm

end Qsym
