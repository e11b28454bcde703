import Qsym.Concolic.Describes
import Qsym.Concolic.Tame
import Qsym.Instrument.Source

/-!
# Qsym.Concolic.Simulation

**One instruction.** If the shadow describes the machines that the inputs of `E` lead to
(`Describes`), then after the handler and the instruction it describes the machines of those inputs
that show the same at the instruction as the one that is watched.

Instructions that compute from operands in a 32-bit register and find nothing symbolic leave the
upper half of the shadow of the register alone, though the processor clears it. This is right only
if nothing is there (`Instruction.Clears`). -/

namespace Qsym

open Procedure Qsym.Expr X86

namespace Process

variable {Reg : Type} [DecidableEq Reg] (T : Process Reg)

/-- The places of the instruction pointer. -/
abbrev pointerPlaces : List (Place Reg) :=
  (Operand.reg T.pin.regInstPtr).places T

/-- The shadow describes the machines of the inputs of `E`, one of which is watched. -/
structure Describes (σ : Session) (E : Input → Prop) (M : Input → Machine Reg)
    (s : Shadow) : Prop where
  input : E σ.input
  wellFormed : s.WellFormed
  bytes : Portrays σ.input E (T.peek s) M
  pointer : ∀ k ∈ T.pointerPlaces, T.peek s k = none
  flags : ∃ h, s.eflags = FlagHistory.eflags h ∧
    FlagHistory.Portrays σ.input E (fun ρ => (M ρ).flags) h

variable {T} {σ : Session} {E E' : Input → Prop} {M M' : Input → Machine Reg} {s s' : Shadow}
variable {o o' : Operand Reg} {ρ : Input} {r : Reg} {k : Place Reg}

namespace Describes

theorem mono (hd : T.Describes σ E M s) (hE : ∀ ρ, E' ρ → E ρ) (hinput : E' σ.input) :
    T.Describes σ E' M s where
  input := hinput
  wellFormed := hd.wellFormed
  bytes := hd.bytes.mono hE
  pointer := hd.pointer
  flags := by
    obtain ⟨h, heq, hh⟩ := hd.flags
    exact ⟨h, heq, hh.mono hE⟩

/-- Only the machines of the inputs of `E` matter. -/
theorem congr (hd : T.Describes σ E M s) (hM : ∀ ρ, E ρ → M ρ = M' ρ) : T.Describes σ E M' s where
  input := hd.input
  wellFormed := hd.wellFormed
  bytes := hd.bytes.congr hd.input hM
  pointer := hd.pointer
  flags := by
    obtain ⟨h, heq, hh⟩ := hd.flags
    exact ⟨h, heq, hh.congr hd.input fun ρ hρ => congrArg Machine.flags (hM ρ hρ)⟩

theorem consistent (hd : T.Describes σ E M s) :
    (T.running (M σ.input)).Consistent σ.input (T.peek s) :=
  hd.bytes.consistent hd.input

/-- Reading lets go of what does not depend on the input. -/
theorem aged (hd : T.Describes σ E M s) (h : (T.running (M σ.input)).Aged s s') :
    T.Describes σ E M s' where
  input := hd.input
  wellFormed := h.wellFormed
  bytes := hd.bytes.fades hd.input h.fades
  pointer k hk := h.fades.eq_none (hd.pointer k hk)
  flags := h.eflags ▸ hd.flags

/-- All machines are at the same instruction. -/
theorem pc_eq (hd : T.Describes σ E M s) (hρ : E ρ) : (M ρ).pc T = (M σ.input).pc T := by
  unfold Machine.pc
  rw [hd.bytes.read_eq_of_not_symbolic hd.input hρ]
  rintro k hk ⟨e, he, -⟩
  exact nomatch (hd.pointer k hk).symm.trans he

/-- All machines go to the same instruction. -/
theorem jump (hd : T.Describes σ E M s) (hP : T.pin.Documented) (hptr : T.pin.Points)
    {next : Input → Addr} (hnext : ∀ ρ, E ρ → next ρ = next σ.input) :
    T.Describes σ E (fun ρ => (M ρ).jump T (next ρ)) s where
  input := hd.input
  wellFormed := hd.wellFormed
  bytes := by
    refine hd.bytes.write_none hP ?_ (fun k hk => ?_) (fun k _ => rfl) fun ρ hρ =>
      by rw [hnext ρ hρ]
    · show T.pin.regSize T.pin.regInstPtr ≤ 2 ^ 64
      rw [hptr.size]
      decide
    · rw [Operand.written_eq] at hk
      rcases List.mem_append.1 hk with hk | hk
      · exact hd.pointer k hk
      · have hgr : T.pin.regIsGr32 T.pin.regInstPtr = false := by
          by_contra hgr
          have h4 := (hP.gr32 _ (Bool.eq_true_of_not_eq_false hgr)).1
          rw [hptr.size] at h4
          cases h4
        simp [Operand.upper, upperPlaces, hgr] at hk
  pointer := hd.pointer
  flags := hd.flags

/-- An operand was written, and it is not the instruction pointer. -/
theorem write (hd : T.Describes σ E M s) {w : Input → BitVec (o.size T * 8)}
    (hapart : ∀ k ∈ T.pointerPlaces, k ∉ o.written T) (hs' : s'.WellFormed)
    (heflags : s'.eflags = s.eflags)
    (hbytes : Portrays σ.input E (T.peek s') fun ρ => (M ρ).write T o (w ρ))
    (hother : ∀ k, k ∉ o.written T → T.peek s k = none → T.peek s' k = none) :
    T.Describes σ E (fun ρ => (M ρ).write T o (w ρ)) s' where
  input := hd.input
  wellFormed := hs'
  bytes := hbytes
  pointer k hk := hother k (hapart k hk) (hd.pointer k hk)
  flags := heflags ▸ hd.flags

/-- Addresses have the values that the machines compute. -/
theorem effectiveAddress_eq (hd : T.Describes σ E M s) (m : MemRef Reg) (hρ : E ρ) :
    (m.arg T (M σ.input)).effectiveAddress (T.running (M σ.input)) (T.peek s) ρ =
      m.address T (M ρ) := by
  have hreg (r : Reg) : (T.running (M σ.input)).addrRegValue (T.peek s) r ρ =
      (M ρ).addrReg T r := by
    unfold addrRegValue Machine.addrReg
    rw [hd.bytes.bv_eq hρ]
    rfl
  unfold MemArg.effectiveAddress
  rw [hreg, hreg]
  rfl

/-- An address that is not symbolic is the same on all inputs. -/
theorem address_eq (hd : T.Describes σ E M s) {m : MemRef Reg}
    (hm : ¬ (m.arg T (M σ.input)).SymbolicAddress (T.running (M σ.input)) s) (hρ : E ρ) :
    m.address T (M ρ) = m.address T (M σ.input) := by
  have hreg (r : Reg) (hr : ∀ k ∈ T.addrRegPlaces r, ¬ Symbolic (T.peek s) k) :
      (M ρ).addrReg T r = (M σ.input).addrReg T r := by
    unfold Machine.addrReg
    split
    next hvalid =>
        rw [addrRegPlaces, if_pos hvalid] at hr
        rw [hd.bytes.read_eq_of_not_symbolic hd.input hρ hr]
    next => rfl
  have hnot (k : Place Reg) (hk : k ∈ T.addrRegPlaces m.base ++ T.addrRegPlaces m.index) :
      ¬ Symbolic (T.peek s) k := fun hsym => hm ⟨k, hk, hsym⟩
  unfold MemRef.address
  rw [hreg m.base fun k hk => hnot k (List.mem_append.2 (.inl hk)),
    hreg m.index fun k hk => hnot k (List.mem_append.2 (.inr hk))]

end Describes

/-! ### Copies -/

section Copies

open Bytes

variable {v v' : ShadowMap Reg} {n : Nat}

/-- A loop over the bytes of an operand copies what was at another one. -/
theorem copies_place (hP : T.pin.Documented) (ho : o.size T ≤ 2 ^ 64) (hsize : o'.size T = o.size T)
    (hreg : ∀ addr addr' n n', ¬ (o = .mem addr n ∧ o' = .mem addr' n'))
    (hcopy : v' = copy ((List.range (o.size T)).map fun i => (o.place T i, o'.place T i))
      (Process.clear v (o.upper T))) :
    (∀ i < o.size T, v' (o.place T i) = v (o'.place T i)) ∧ (∀ k ∈ o.upper T, v' k = none) ∧
      ∀ k, k ∉ o.written T → v' k = v k := by
  have hinj (i) (hi : i < o.size T) (j) (hj : j < o.size T) : o.place T i = o.place T j → i = j :=
    Operand.place_inj ho hi hj
  subst hcopy
  refine ⟨fun i hi => ?_, fun k hk => ?_, fun k hk => ?_⟩
  · rw [copy_range _ hinj (fun i j hij hj => ?_) hi, clear_of_notMem]
    · exact Operand.place_notMem_upper hP hsize (hsize ▸ hi)
    · rcases Operand.place_eq_or_ne hP hsize.symm hreg with heq | hne
      · rw [← heq j]
        exact fun h => absurd (hinj i (hij.trans hj) j hj h) hij.ne
      · exact hne i (hij.trans hj) j (hsize ▸ hj)
  · rw [copy_range_of_ne, clear_of_mem hk]
    rintro i hi rfl
    exact Operand.place_notMem_upper hP rfl hi hk
  · rw [Operand.written_eq, List.mem_append, not_or] at hk
    rw [copy_range_of_ne, clear_of_notMem hk.2]
    rintro i hi rfl
    exact hk.1 (Operand.mem_places_iff.2 ⟨i, hi, rfl⟩)

end Copies

end Process

/-! ### Operands of instructions -/

section Operands

variable {Reg : Type} {T : Process Reg} {l : Location Reg}

theorem Location.Fits.size_pos (h : l.Fits T) : 0 < l.size T := by
  have := h.1
  simp only [List.mem_cons, List.not_mem_nil, or_false] at this
  omega

theorem Location.Fits.size_le (h : l.Fits T) : l.size T ≤ 2 ^ 64 := by
  have := h.1
  simp only [List.mem_cons, List.not_mem_nil, or_false] at this
  omega

variable [DecidableEq Reg] {M M' : Machine Reg} {i : Instruction Reg} {dst : Location Reg}
  {src : Source Reg}
variable {o : Operand Reg}

@[simp] theorem Location.size_operand (M : Machine Reg) (l : Location Reg) :
    (l.operand T M).size T = l.size T := by
  cases l <;> rfl

omit [DecidableEq Reg] in
theorem Operand.mem_written_reg {r : Reg} {k : Place Reg} (h : k ∈ (Operand.reg r).written T) :
    ∃ j, k = .reg (T.pin.regFullRegName r) j := by
  rw [Operand.written_eq] at h
  rcases List.mem_append.1 h with h | h
  · rw [Process.places_reg, Process.mem_regPlaces_iff] at h
    obtain ⟨j, hk, -⟩ := h
    exact ⟨j, hk⟩
  · simp only [Operand.upper, Process.upperPlaces] at h
    split at h
    · obtain ⟨j, hk, -⟩ := Process.mem_regPlaces_iff.1 h
      exact ⟨j, hk⟩
    · cases h

/-- No operand is the instruction pointer. -/
theorem Location.Fits.apart (h : l.Fits T) (hptr : T.pin.Points) (M : Machine Reg) :
    ∀ k ∈ T.pointerPlaces, k ∉ (l.operand T M).written T := by
  intro k hk hkl
  rw [Process.pointerPlaces, Process.places_reg, Process.mem_regPlaces_iff] at hk
  obtain ⟨j, rfl, -⟩ := hk
  cases l with
  | reg r =>
      obtain ⟨j', hj'⟩ := Operand.mem_written_reg hkl
      have hfull : T.pin.regFullRegName T.pin.regInstPtr = T.pin.regFullRegName r := by
        injection hj'
      exact h.2 (hfull.symm.trans hptr.full)
  | mem m =>
      have hmem : Place.reg (T.pin.regFullRegName T.pin.regInstPtr) j ∈
          (Operand.mem (m.address T M) m.size).places T := by
        simpa [Location.operand, Operand.written] using hkl
      simp [Operand.places] at hmem

theorem Location.operand_congr (h : ∀ m, l = .mem m → m.address T M = m.address T M') :
    l.operand T M = l.operand T M' := by
  cases l with
  | reg r => rfl
  | mem m => exact congrArg (Operand.mem · m.size) (h m rfl)

theorem MemRef.Fits.long {m : MemRef Reg} (h : m.Fits T) (M : Machine Reg) :
    (m.arg T M).Long (T.running M) :=
  fun r hr hvalid => (h r hr hvalid).1

theorem Source.value_loc {n : Nat} (h : l.operand T M = o) :
    (Source.loc l).value T M n = (M.read T o).setWidth n := by
  subst h
  rfl

theorem Instruction.effect_mov (h : dst.operand T M = o) :
    (mov dst src).effect T M = M.write T o (src.value T M _) := by
  subst h
  rfl

theorem Instruction.effect_movx {kind : ExtKind} {r : Reg} (h : l.operand T M = o) :
    (movx kind r l).effect T M = M.write T (.reg r) (kind.apply _ (M.read T o)) := by
  subst h
  rfl

end Operands

/-! ### Inputs that show the same -/

namespace Process

variable {Reg : Type} [DecidableEq Reg] (T : Process Reg)

/-- The inputs of `E` that show the same at an instruction as the one that is watched. -/
def Follows (σ : Session) (E : Input → Prop) (M : Input → Machine Reg) (i : Instruction Reg)
    (ρ : Input) : Prop :=
  E ρ ∧ i.event T (M ρ) = i.event T (M σ.input)

variable {T} {σ : Session} {E : Input → Prop} {M : Input → Machine Reg} {i : Instruction Reg}
variable {s : Shadow} {ρ : Input} {m : MemRef Reg} {l : Location Reg}

theorem Follows.address (h : T.Follows σ E M i ρ) (hm : i.memRef = some m) :
    m.address T (M ρ) = m.address T (M σ.input) := by
  have haddress := congrArg Event.address h.2
  simpa [Instruction.event, hm] using haddress

/-- The operands of the watched machine. -/
theorem Follows.operand (h : T.Follows σ E M i ρ) (hl : ∀ m, l = .mem m → i.memRef = some m) :
    l.operand T (M ρ) = l.operand T (M σ.input) :=
  Location.operand_congr fun m hm => h.address (hl m hm)

theorem Describes.follows (hd : T.Describes σ E M s) (i : Instruction Reg) :
    T.Describes σ (T.Follows σ E M i) M s :=
  hd.mono (fun _ hρ => hρ.1) ⟨hd.input, rfl⟩

end Process

end Qsym
