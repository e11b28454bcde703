import Qsym.Shadow.Paging

/-!
# Qsym.Shadow.Brk

The shadow of the program's heap: one block of cells that `Memory::brk` resizes and enters
into the page table from its start again.

The heap always lies in its block (`InBlock`), so two of its addresses never share a cell
and what stays in the heap keeps its expression. Two things go wrong. The loop that unmaps
what a smaller heap gave up runs up to the page *behind* the old heap, and the cells that
`realloc` adds hold anything. A call is right exactly when neither happens
(`Resized.kept_iff`).
-/

namespace Qsym

def roundUp (num multiple : Addr) : Addr :=
  let remainder := num % multiple
  if remainder = 0 then num else num + multiple - remainder

def roundPageUp (num : Addr) : Addr :=
  roundUp num kPageSize

/-- `sizeof(ExprRef)` -/
def sizeofExprRef : Addr := 16

/-- `Memory`, with the block of the heap. -/
structure Brk extends Paging where
  brk_page_ : Option Ptr
  brk_start_ : Addr
  brk_end_ : Addr

namespace Brk

/-- `Memory::Memory` and `Memory::initialize` -/
def new (vdso : Option (Addr × Addr)) : Brk :=
  { Paging.new vdso with brk_page_ := none, brk_start_ := 0, brk_end_ := 0 }

variable (mem : Brk)

/-- `safeRealloc(brk_page_, size)`. The allocator answers `NULL`, which ends the process, or
a block in which the cells that the old one did not have hold `rest`. It may also answer
`NULL` where there is memory left: `realloc` of no bytes does, so that a `brk` back to the
start of the heap ends the process. -/
def safeRealloc (size : Addr) (answer : Option (Nat → Option Expr)) :
    Option (Ptr × Heap (Option Expr)) :=
  answer.map fun rest => mem.heap.realloc mem.brk_page_ (size / sizeofExprRef).toNat rest

def initializeBrk (addr : Addr) : Brk :=
  if mem.brk_start_ = 0 then
    let addr := roundPageUp addr
    { mem with brk_start_ := addr, brk_end_ := addr }
  else mem

def brk (addr : Addr) (answer : Option (Nat → Option Expr)) : Option Brk := do
  let start := mem.brk_start_
  let stop := roundPageUp addr
  let (brk_page_, heap) ← mem.safeRealloc ((stop - start) * sizeofExprRef) answer
  let page_table_ := Paging.mapPages mem.page_table_ (addressToPageIndex start)
    (addressToPageIndex (stop - 1)) fun j => brk_page_.add (j * kPageSize.toNat)
  let page_table_ := Paging.mapPages page_table_ (addressToPageIndex stop)
    (addressToPageIndex mem.brk_end_) fun _ => mem.unmapped_page_
  return { mem with heap, page_table_, brk_page_ := some brk_page_, brk_end_ := stop }

/-- `setExprToMem(addr, e)` -/
def setExprToMem (addr : Addr) (e : Option Expr) : Option Brk :=
  (mem.poke addr e).map fun paging => { mem with toPaging := paging }

/-! ### Calls -/

/-- What happens to a heap. -/
inductive Event
  | brk (addr : Addr) (answer : Option (Nat → Option Expr))
  | setExprToMem (addr : Addr) (e : Option Expr)

def step : Event → Option Brk
  | .brk addr answer => mem.brk addr answer
  | .setExprToMem addr e => mem.setExprToMem addr e

/-- `P` holds of every step of the run over `events`, as long as the process lives. -/
def Always (P : Brk → Event → Brk → Prop) (mem : Brk) : List Event → Prop
  | [] => True
  | event :: events =>
      ∀ mem', mem.step event = some mem' → P mem event mem' ∧ Always P mem' events

/-- The addresses from the start of the heap to its end. -/
def InHeap (addr : Addr) : Prop :=
  mem.brk_start_ ≤ addr ∧ addr < mem.brk_end_

/-- A faithful resize: two addresses of the heap have two cells, what stays in the heap
keeps its expression, what is new there has none, and no page outside is touched. -/
structure Kept (mem mem' : Brk) : Prop where
  injective : ∀ a a', mem'.InHeap a → mem'.InHeap a' →
    mem'.getExprPtrFromMem a = mem'.getExprPtrFromMem a' → a = a'
  kept : ∀ a, mem.InHeap a → mem'.InHeap a → mem'.peek a = mem.peek a
  empty : ∀ a, ¬ mem.InHeap a → mem'.InHeap a → mem'.peek a = some none
  other : ∀ a, ¬ mem.InHeap a → ¬ mem'.InHeap a → mem'.getPage a = mem.getPage a

/-- The end is an address of the heap, and the byte counts fit into a word. -/
structure Fits (addr : Addr) : Prop where
  start_le : mem.brk_start_.toNat ≤ addr.toNat
  lt : addr.toNat + 4095 < 2 ^ 64
  size_lt : addr.toNat + 4096 ≤ mem.brk_start_.toNat + 2 ^ 60

/-- Nothing is to be unmapped behind the old heap, and the cells that were added are empty. -/
def Suits (addr : Addr) (rest : Nat → Option Expr) : Prop :=
  (roundPageUp addr ≤ mem.brk_end_ → mem.getPage mem.brk_end_ = some mem.unmapped_page_) ∧
    ∀ i, (mem.brk_end_ - mem.brk_start_).toNat ≤ i →
      i < (roundPageUp addr - mem.brk_start_).toNat → rest i = none

/-- A heap of whole pages that lies in its block. -/
structure InBlock : Prop where
  start_pos : 0 < mem.brk_start_.toNat
  start_aligned : mem.brk_start_.toNat % 4096 = 0
  end_aligned : mem.brk_end_.toNat % 4096 = 0
  start_le : mem.brk_start_.toNat ≤ mem.brk_end_.toNat
  live : ∀ i, (mem.brk_page_.bind fun p => mem.heap.cell (p.add i)) ≠ none ↔
    i < mem.brk_end_.toNat - mem.brk_start_.toNat
  ptr : ∀ a, mem.InHeap a → ∃ p, mem.brk_page_ = some p ∧
    mem.getExprPtrFromMem a = p.add (a.toNat - mem.brk_start_.toNat)

/-- The heap before the first call. -/
structure Initialized : Prop where
  page : mem.brk_page_ = none
  start_pos : 0 < mem.brk_start_.toNat
  start_aligned : mem.brk_start_.toNat % 4096 = 0
  stop : mem.brk_end_ = mem.brk_start_

variable {mem} {mem' : Brk} {addr : Addr} {e : Option Expr}
  {answer : Option (Nat → Option Expr)} {rest : Nat → Option Expr}

/-! ### Rounding -/

theorem toNat_roundPageUp (h : addr.toNat + 4095 < 2 ^ 64) :
    (roundPageUp addr).toNat = (addr.toNat + 4095) / 4096 * 4096 := by
  have hsize : kPageSize = 4096#64 := rfl
  have hnat : (4096#64).toNat = 4096 := rfl
  have hrem : (addr % 4096#64).toNat = addr.toNat % 4096 := by rw [BitVec.toNat_umod, hnat]
  simp only [roundPageUp, roundUp, hsize]
  split
  next heq =>
      have hzero := congrArg BitVec.toNat heq
      rw [hrem, show (0 : Addr).toNat = 0 from rfl] at hzero
      omega
  next hne =>
      have hpos : addr.toNat % 4096 ≠ 0 := fun h0 =>
        hne (BitVec.eq_of_toNat_eq (by rw [hrem, h0]; rfl))
      have hadd : (addr + 4096#64).toNat = addr.toNat + 4096 ∨
          2 ^ 64 ≤ addr.toNat + 4096 := by
        rw [BitVec.toNat_add, hnat]
        omega
      rw [BitVec.toNat_sub, BitVec.toNat_add, hrem, hnat]
      omega

/-- The end of a heap after a call. -/
theorem Fits.stop (h : mem.Fits addr) :
    (roundPageUp addr).toNat % 4096 = 0 ∧ addr.toNat ≤ (roundPageUp addr).toNat ∧
      (roundPageUp addr).toNat < mem.brk_start_.toNat + 2 ^ 60 := by
  rw [toNat_roundPageUp h.lt]
  have := h.size_lt
  omega

/-! ### One call -/

theorem brk_eq_some (h : mem.brk addr answer = some mem') : ∃ rest, answer = some rest := by
  cases answer with
  | none => simp [brk, safeRealloc] at h
  | some rest => exact ⟨rest, rfl⟩

/-- The cells that `brk` asks for. -/
theorem cells_of_fits (h : mem.Fits addr) :
    ((roundPageUp addr - mem.brk_start_) * sizeofExprRef / sizeofExprRef).toNat =
      (roundPageUp addr).toNat - mem.brk_start_.toNat := by
  have hsize : sizeofExprRef.toNat = 16 := rfl
  obtain ⟨-, hle, hlt⟩ := h.stop
  have := h.start_le
  rw [BitVec.toNat_udiv, BitVec.toNat_mul,
    BitVec.toNat_sub_of_le (BitVec.le_def.2 (by omega)), hsize]
  omega

/-- Everything that a call does, where the end fits. -/
structure Resized (mem : Brk) (addr : Addr) (rest : Nat → Option Expr) (mem' : Brk) : Prop where
  start : mem'.brk_start_ = mem.brk_start_
  stop : mem'.brk_end_ = roundPageUp addr
  page : mem'.brk_page_ = some ⟨mem.heap.next, 0⟩
  unmapped : mem'.unmapped_page_ = mem.unmapped_page_
  cell : ∀ i, mem'.heap.cell (Ptr.add ⟨mem.heap.next, 0⟩ i) =
    if i < (roundPageUp addr).toNat - mem.brk_start_.toNat then
      some ((mem.brk_page_.bind fun p => mem.heap.cell (p.add i)).getD (rest i))
    else none
  getPage : ∀ a, mem'.getPage a =
    if (roundPageUp addr).toNat / 4096 ≤ a.toNat / 4096 ∧
        a.toNat / 4096 ≤ mem.brk_end_.toNat / 4096 then some mem.unmapped_page_
    else if mem.brk_start_.toNat / 4096 ≤ a.toNat / 4096 ∧
        a.toNat / 4096 ≤ ((roundPageUp addr).toNat - 1) / 4096 then
      some (Ptr.add ⟨mem.heap.next, 0⟩ ((a.toNat / 4096 - mem.brk_start_.toNat / 4096) * 4096))
    else mem.getPage a

theorem brk_resized (hm : mem.InBlock) (hfits : mem.Fits addr)
    (h : mem.brk addr (some rest) = some mem') : Resized mem addr rest mem' := by
  have hone : (1 : Addr).toNat = 1 := rfl
  have hstop := hfits.stop
  have := hm.start_pos
  have := hfits.start_le
  have hlast : (roundPageUp addr - 1).toNat = (roundPageUp addr).toNat - 1 := by
    rw [BitVec.toNat_sub_of_le (BitVec.le_def.2 (by omega)), hone]
  simp only [brk, safeRealloc, Option.map_some, Option.bind_eq_bind, Option.bind_some,
    Option.pure_def, Option.some.injEq] at h
  subst h
  refine ⟨rfl, rfl, rfl, rfl, fun i => ?_, fun a => ?_⟩
  · rw [← cells_of_fits hfits]
    exact Heap.realloc_cell_new _ _ _ _ _
  · simp only [Paging.getPage, Paging.mapPages_apply, BitVec.le_def,
      toNat_addressToPageIndex, hlast]
    rfl

section

variable (hm : mem.InBlock) (hfits : mem.Fits addr) (hr : Resized mem addr rest mem')

include hm hfits hr

/-- The shadow of an address of the heap lies at its distance from the start. -/
theorem Resized.ptr {a : Addr} (ha : mem'.InHeap a) : mem'.getExprPtrFromMem a =
    Ptr.add ⟨mem.heap.next, 0⟩ (a.toNat - mem.brk_start_.toNat) := by
  have hstop := hfits.stop
  have := hm.start_aligned
  obtain ⟨hge, hlt⟩ := ha
  rw [hr.start, BitVec.le_def] at hge
  rw [hr.stop, BitVec.lt_def] at hlt
  have hpage := hr.getPage a
  rw [if_neg (by omega), if_pos (by omega)] at hpage
  rw [Paging.getExprPtrFromMem_of_getPage hpage, toNat_addressToOffset]
  simp only [Ptr.add, Ptr.mk.injEq, true_and]
  omega

theorem Resized.inBlock : mem'.InBlock := by
  have hstop := hfits.stop
  have := hfits.start_le
  refine ⟨hr.start ▸ hm.start_pos, hr.start ▸ hm.start_aligned, hr.stop ▸ hstop.1, ?_, fun i => ?_,
    fun a ha => ⟨_, hr.page, ?_⟩⟩
  · rw [hr.start, hr.stop]
    omega
  · rw [hr.page, Option.bind_some, hr.cell, hr.stop, hr.start]
    split
    next hlt => simpa using hlt
    next hge => simpa using hge
  · rw [hr.start]
    exact hr.ptr hm hfits ha

/-- What an address of the new heap holds. -/
theorem Resized.peek {a : Addr} (ha : mem'.InHeap a) : mem'.peek a =
    some ((mem.brk_page_.bind fun p => mem.heap.cell
      (p.add (a.toNat - mem.brk_start_.toNat))).getD (rest (a.toNat - mem.brk_start_.toNat))) := by
  have hptr := hr.ptr hm hfits ha
  obtain ⟨hge, hlt⟩ := ha
  rw [hr.start, BitVec.le_def] at hge
  rw [hr.stop, BitVec.lt_def] at hlt
  rw [Paging.peek, hptr, hr.cell, if_pos (by omega)]

/-- **Resizing.** A call is faithful exactly when it unmaps nothing behind the old heap and
the cells that it gets are empty. -/
theorem Resized.kept_iff : Kept mem mem' ↔ mem.Suits addr rest := by
  have hstop := hfits.stop
  have hstart := hm.start_aligned
  have hend := hm.end_aligned
  have hle := hm.start_le
  have hge := hfits.start_le
  have hold {a : Addr} : mem.InHeap a ↔
      mem.brk_start_.toNat ≤ a.toNat ∧ a.toNat < mem.brk_end_.toNat := by
    rw [InHeap, BitVec.le_def, BitVec.lt_def]
  have hnew {a : Addr} : mem'.InHeap a ↔
      mem.brk_start_.toNat ≤ a.toNat ∧ a.toNat < (roundPageUp addr).toNat := by
    rw [InHeap, BitVec.le_def, BitVec.lt_def, hr.start, hr.stop]
  have hsize : (mem.brk_end_ - mem.brk_start_).toNat =
      mem.brk_end_.toNat - mem.brk_start_.toNat := BitVec.toNat_sub_of_le (BitVec.le_def.2 hle)
  have hsize' : (roundPageUp addr - mem.brk_start_).toNat =
      (roundPageUp addr).toNat - mem.brk_start_.toNat :=
    BitVec.toNat_sub_of_le (BitVec.le_def.2 (by omega))
  -- what an address of the new heap holds is the old cell or what the allocator left there
  have hpeek {a : Addr} (ha : mem'.InHeap a) (hgt : mem.brk_end_.toNat ≤ a.toNat) :
      mem'.peek a = some (rest (a.toNat - mem.brk_start_.toNat)) := by
    have hdead : (mem.brk_page_.bind fun p => mem.heap.cell
        (p.add (a.toNat - mem.brk_start_.toNat))) = none := by
      by_contra hne
      have := (hm.live _).1 hne
      have := hnew.1 ha
      omega
    rw [hr.peek hm hfits ha, hdead, Option.getD_none]
  constructor
  · intro hk
    refine ⟨fun hshrink => ?_, fun i hi hi' => ?_⟩
    · -- the first page behind the old heap is not in the new one either
      rw [BitVec.le_def] at hshrink
      have hother := hk.other mem.brk_end_ (by rw [hold]; omega) (by rw [hnew]; omega)
      rw [hr.getPage, if_pos (by omega)] at hother
      exact hother.symm
    · rw [hsize] at hi
      rw [hsize'] at hi'
      have ha : (mem.brk_start_ + BitVec.ofNat 64 i).toNat = mem.brk_start_.toNat + i := by
        rw [BitVec.toNat_add, BitVec.toNat_ofNat]
        have := (roundPageUp addr).isLt
        omega
      have hin : mem'.InHeap (mem.brk_start_ + BitVec.ofNat 64 i) := by
        rw [hnew, ha]
        omega
      have hempty := hk.empty _ (by rw [hold, ha]; omega) hin
      rw [hpeek hin (by rw [ha]; omega), ha, Nat.add_sub_cancel_left] at hempty
      exact Option.some.inj hempty
  · rintro ⟨hpage, hrest⟩
    refine ⟨fun a a' ha ha' heq => ?_, fun a ha ha' => ?_, fun a ha ha' => ?_, fun a ha ha' => ?_⟩
    · rw [hr.ptr hm hfits ha, hr.ptr hm hfits ha'] at heq
      simp only [Ptr.add, Ptr.mk.injEq, Nat.zero_add, true_and] at heq
      have := hnew.1 ha
      have := hnew.1 ha'
      exact BitVec.eq_of_toNat_eq (by omega)
    · obtain ⟨p, hp, hptr⟩ := hm.ptr a ha
      have hin := hold.1 ha
      have hlive := (hm.live (a.toNat - mem.brk_start_.toNat)).2 (by omega)
      rw [hp, Option.bind_some] at hlive
      obtain ⟨x, hx⟩ := Option.ne_none_iff_exists'.1 hlive
      rw [hr.peek hm hfits ha', hp, Option.bind_some, hx, Option.getD_some, Paging.peek, hptr, hx]
    · have hin := hnew.1 ha'
      rw [hold] at ha
      rw [hpeek ha' (by omega), hrest _ (by rw [hsize]; omega) (by rw [hsize']; omega)]
    · rw [hold] at ha
      rw [hnew] at ha'
      rw [hr.getPage]
      split
      next hbehind =>
          -- only the page that begins at the end of the old heap is unmapped outside
          rw [← hpage (BitVec.le_def.2 (by omega))]
          refine Paging.getPage_congr (BitVec.eq_of_toNat_eq ?_)
          rw [toNat_addressToPageIndex, toNat_addressToPageIndex]
          omega
      next => rw [if_neg (by omega)]

end

/-! ### Every run -/

theorem Initialized.inBlock (h : mem.Initialized) : mem.InBlock := by
  have hstop := h.stop
  refine ⟨h.start_pos, h.start_aligned, hstop ▸ h.start_aligned, hstop ▸ Nat.le_refl _,
    fun i => ?_, fun a ha => ?_⟩
  · rw [h.page, hstop, Nat.sub_self]
    simp
  · obtain ⟨hge, hlt⟩ := ha
    rw [BitVec.le_def] at hge
    rw [BitVec.lt_def, hstop] at hlt
    omega

/-- A store goes to a cell that is there. -/
theorem InBlock.setExprToMem (hm : mem.InBlock) (h : mem.setExprToMem addr e = some mem') :
    mem'.InBlock ∧ mem'.brk_start_ = mem.brk_start_ := by
  simp only [Brk.setExprToMem, Paging.poke, Option.map_eq_some_iff] at h
  obtain ⟨paging, h, rfl⟩ := h
  split at h
  next => cases h
  next =>
      obtain ⟨heap, hstore, rfl⟩ := Option.map_eq_some_iff.1 h
      obtain ⟨hlive, hcell, -⟩ := Heap.store_eq_some hstore
      refine ⟨⟨hm.start_pos, hm.start_aligned, hm.end_aligned, hm.start_le, fun i => ?_, hm.ptr⟩,
        rfl⟩
      rw [← hm.live i]
      show (mem.brk_page_.bind fun p => heap.cell (p.add i)) ≠ none ↔ _
      cases mem.brk_page_ with
      | none => rfl
      | some p =>
          simp only [Option.bind_some, hcell]
          by_cases heq : p.add i = mem.getExprPtrFromMem addr
          · rw [heq, Function.update_self]
            exact iff_of_true nofun hlive
          · rw [Function.update_of_ne heq]

/-- The ends of all calls fit. -/
def EndsFit (mem : Brk) (events : List Event) : Prop :=
  ∀ addr answer, Event.brk addr answer ∈ events → mem.Fits addr

theorem endsFit_nil : mem.EndsFit [] := nofun

theorem endsFit_brk {events : List Event} (h : mem.Fits addr) (hs : mem.EndsFit events) :
    mem.EndsFit (.brk addr answer :: events) := by
  intro addr' answer' hmem
  rcases List.mem_cons.1 hmem with heq | hmem
  · cases heq
    exact h
  · exact hs addr' answer' hmem

theorem endsFit_setExprToMem {events : List Event} (hs : mem.EndsFit events) :
    mem.EndsFit (.setExprToMem addr e :: events) := by
  intro addr' answer' hmem
  rcases List.mem_cons.1 hmem with heq | hmem
  · cases heq
  · exact hs addr' answer' hmem

/-- The heap is kept by a step of its own. -/
def KeptBy (mem : Brk) : Event → Brk → Prop
  | .brk _ _, mem' => Kept mem mem'
  | .setExprToMem _ _, _ => True

/-- What a step asks for. -/
def SuitedBy (mem : Brk) : Event → Brk → Prop
  | .brk addr (some rest), _ => mem.Suits addr rest
  | _, _ => True

theorem InBlock.step (hm : mem.InBlock) {event : Event} {events : List Event}
    (hfits : mem.EndsFit (event :: events)) (h : mem.step event = some mem') :
    mem'.InBlock ∧ mem'.EndsFit events ∧ (KeptBy mem event mem' ↔ SuitedBy mem event mem') := by
  have hrest : mem'.brk_start_ = mem.brk_start_ → mem'.EndsFit events := by
    intro hstart addr answer hmem
    obtain ⟨hge, hlt, hsize⟩ := hfits addr answer (List.mem_cons_of_mem _ hmem)
    exact ⟨hstart ▸ hge, hlt, hstart ▸ hsize⟩
  cases event with
  | brk addr answer =>
      obtain ⟨rest, rfl⟩ := brk_eq_some h
      have hfit := hfits addr _ List.mem_cons_self
      have hr := brk_resized hm hfit h
      exact ⟨hr.inBlock hm hfit, hrest hr.start, hr.kept_iff hm hfit⟩
  | setExprToMem addr e =>
      obtain ⟨hm', hstart⟩ := hm.setExprToMem h
      exact ⟨hm', hrest hstart, Iff.rfl⟩

theorem InBlock.always_iff {events : List Event} (hm : mem.InBlock) (hfits : mem.EndsFit events) :
    Always KeptBy mem events ↔ Always SuitedBy mem events := by
  induction events generalizing mem with
  | nil => exact Iff.rfl
  | cons event events ih =>
      simp only [Always]
      refine forall_congr' fun mem' => forall_congr' fun hstep => ?_
      obtain ⟨hm', hfits', hiff⟩ := hm.step hfits hstep
      rw [hiff, ih hm' hfits']

/-- **Growing and shrinking.** Over any run of calls and stores every call is faithful
exactly when every call suits. -/
theorem always_kept_iff (events : List Event) (hinit : mem.Initialized)
    (hfits : mem.EndsFit events) : Always KeptBy mem events ↔ Always SuitedBy mem events :=
  hinit.inBlock.always_iff hfits

/-- A heap that starts at `0x601000`. -/
theorem initialized_new : ((new none).initializeBrk 0x600800).Initialized :=
  ⟨rfl, by decide, by decide, rfl⟩

/-- A second end in the last page of the heap unmaps the page behind it, and a cell that
`realloc` adds may hold an expression. -/
theorem always_kept_not :
    ((new none).initializeBrk 0x600800).Initialized ∧
      (((new none).initializeBrk 0x600800).EndsFit
          [.brk 0x602000 (some fun _ => none), .brk 0x601ff0 (some fun _ => none)] ∧
        ¬ Always KeptBy ((new none).initializeBrk 0x600800)
          [.brk 0x602000 (some fun _ => none), .brk 0x601ff0 (some fun _ => none)]) ∧
      ((new none).initializeBrk 0x600800).EndsFit
          [.brk 0x602000 (some fun _ => some (.read 0))] ∧
        ¬ Always KeptBy ((new none).initializeBrk 0x600800)
          [.brk 0x602000 (some fun _ => some (.read 0))] := by
  have hfits : ((new none).initializeBrk 0x600800).EndsFit
      [.brk 0x602000 (some fun _ => none), .brk 0x601ff0 (some fun _ => none)] :=
    endsFit_brk ⟨by decide, by decide, by decide⟩
      (endsFit_brk ⟨by decide, by decide, by decide⟩ endsFit_nil)
  have hfits' : ((new none).initializeBrk 0x600800).EndsFit
      [.brk 0x602000 (some fun _ => some (.read 0))] :=
    endsFit_brk ⟨by decide, by decide, by decide⟩ endsFit_nil
  refine ⟨initialized_new, ⟨hfits, fun h => ?_⟩, hfits', fun h => ?_⟩
  · obtain ⟨mem, hmem⟩ : ∃ mem, ((new none).initializeBrk 0x600800).brk 0x602000
        (some fun _ => none) = some mem := ⟨_, rfl⟩
    obtain ⟨hm, hfits, -⟩ := initialized_new.inBlock.step hfits hmem
    obtain ⟨mem', hmem'⟩ : ∃ mem', mem.brk 0x601ff0 (some fun _ => none) = some mem' := by
      exact ⟨_, rfl⟩
    have hk := ((h mem hmem).2 mem' hmem').1
    have hr := brk_resized hm (hfits _ _ List.mem_cons_self) hmem'
    have hpage := ((hr.kept_iff hm (hfits _ _ List.mem_cons_self)).1 hk).1
    cases hmem
    exact absurd (hpage (by decide)) (by decide)
  · obtain ⟨mem, hmem⟩ : ∃ mem, ((new none).initializeBrk 0x600800).brk 0x602000
        (some fun _ => some (.read 0)) = some mem := ⟨_, rfl⟩
    have hfit := hfits' _ _ List.mem_cons_self
    have hm := initialized_new.inBlock
    have hrest := (((brk_resized hm hfit hmem).kept_iff hm hfit).1 (h mem hmem).1).2
    cases hrest 0 (by decide) (by decide)

/-- A heap that only grows, into empty cells. -/
theorem always_kept_iff_growing : Always KeptBy ((new none).initializeBrk 0x600800)
    [.brk 0x602000 (some fun _ => none), .setExprToMem 0x601000 (some (.read 0)),
      .brk 0x603000 (some fun _ => none)] := by
  have hfits : ((new none).initializeBrk 0x600800).EndsFit
      [.brk 0x602000 (some fun _ => none), .setExprToMem 0x601000 (some (.read 0)),
        .brk 0x603000 (some fun _ => none)] :=
    endsFit_brk ⟨by decide, by decide, by decide⟩ (endsFit_setExprToMem
      (endsFit_brk ⟨by decide, by decide, by decide⟩ endsFit_nil))
  refine (always_kept_iff _ initialized_new hfits).2 ?_
  intro mem₁ h₁
  cases h₁
  refine ⟨⟨fun h => absurd h (by decide), fun _ _ _ => rfl⟩, fun mem₂ h₂ => ⟨trivial, ?_⟩⟩
  have hend : mem₂.brk_end_ = 0x602000 := by
    simp only [step, setExprToMem, Option.map_eq_some_iff] at h₂
    obtain ⟨_, -, rfl⟩ := h₂
    rfl
  refine fun mem₃ _ => ⟨⟨fun h => ?_, fun _ _ _ => rfl⟩, trivial⟩
  rw [hend] at h
  exact absurd h (by decide)

end Brk

end Qsym
