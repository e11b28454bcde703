import Qsym.Heap.Blocks
import Qsym.Shadow.Memory

/-!
# Qsym.Shadow.Paging

The page table of `Memory` with its pointers: the pages of one `mmap` call lie one behind
the other in one block of cells, and `mremap` moves them to a new block.

`mremap` gives every page of the new range the start of the new block, and copies as many
cells as the old range had, whether the new block holds them or not. So it is right for
one page that moves to one page, and for nothing else (`mremap_moved_iff`).
-/

namespace Qsym

/-- `kPageSize` -/
def kPageSize : Addr := 1 <<< kPageShift

def roundPageDown (num : Addr) : Addr :=
  num / kPageSize * kPageSize

/-- `Memory`, with the blocks that its pages are in. No cell of `unmapped_page_` may be
accessed, and the ones of `zero_page_` may not be written. -/
structure Paging where
  page_table_ : Addr → Option Ptr
  unmapped_page_ : Ptr
  zero_page_ : Ptr
  heap : Heap (Option Expr)

namespace Paging

/-- `for (i = first, j = 0; i <= last; i++, j++) page_table_[i] = page(j)` -/
def mapPages (table : Addr → Option Ptr) (first last : Addr) (page : Nat → Ptr) :
    Addr → Option Ptr :=
  (List.range (last.toNat + 1 - first.toNat)).foldl
    (fun table j => Function.update table (first + BitVec.ofNat 64 j) (some (page j))) table

/-- `Memory::initialize`, where `vdso` is what `getVdso` finds. -/
def new (vdso : Option (Addr × Addr)) : Paging :=
  let empty : Heap (Option Expr) := { cell _ := none, next := 0, fresh _ _ := rfl }
  let (unmapped_page_, heap) := empty.alloc 0 none
  let (zero_page_, heap) := heap.alloc kPageSize.toNat none
  { page_table_ := match vdso with
      | none => fun _ => none
      | some (start, stop) => mapPages (fun _ => none) (addressToPageIndex start)
          (addressToPageIndex stop) fun _ => zero_page_
    unmapped_page_, zero_page_, heap }

variable (mem : Paging)

/-- `allocRWPages(n * sizeof(ExprRef))`; nothing can be allocated for no cells. -/
def allocRWPages (n : Nat) : Option (Ptr × Heap (Option Expr)) :=
  if n = 0 then none else some (mem.heap.alloc n none)

def getPage (addr : Addr) : Option Ptr :=
  mem.page_table_ (addressToPageIndex addr)

def getExprPtrFromMem (addr : Addr) : Ptr :=
  match mem.getPage addr with
  | none => mem.zero_page_
  | some page => page.add (addressToOffset addr).toNat

/-- `*getExprPtrFromMem(addr)` -/
def peek (addr : Addr) : Option (Option Expr) :=
  mem.heap.cell (mem.getExprPtrFromMem addr)

/-- `*getExprPtrFromMem(addr) = e` -/
def poke (addr : Addr) (e : Option Expr) : Option Paging :=
  let ptr := mem.getExprPtrFromMem addr
  if ptr.block = mem.zero_page_.block then none
  else (mem.heap.store ptr e).map fun heap => { mem with heap }

def mmap (start stop : Addr) : Option Paging := do
  let start := roundPageDown start
  let stop := roundPageDown stop
  let length := stop - start + kPageSize
  let (page, heap) ← mem.allocRWPages length.toNat
  return { mem with
    heap
    page_table_ := mapPages mem.page_table_ (addressToPageIndex start)
      (addressToPageIndex stop) fun j => page.add (j * kPageSize.toNat) }

def mremap (old_start old_size new_start new_size : Addr) : Option Paging := do
  let old_end := roundPageDown (old_start + old_size - 1)
  let new_end := roundPageDown (new_start + new_size - 1)
  let old_page ← mem.getPage old_start
  let (new_page, heap) ← mem.allocRWPages new_size.toNat
  let heap ← heap.copy new_page old_page old_size.toNat
  let heap := heap.free old_page old_size.toNat
  let page_table_ := mapPages mem.page_table_ (addressToPageIndex old_start)
    (addressToPageIndex old_end) fun _ => mem.unmapped_page_
  let page_table_ := mapPages page_table_ (addressToPageIndex new_start)
    (addressToPageIndex new_end) fun _ => new_page
  return { mem with heap, page_table_ }

/-! ### Ranges -/

/-- Every page has been handed out; `unmapped_page_` has no cells, the ones of
`zero_page_` hold nothing. -/
structure WellFormed : Prop where
  unmapped : mem.unmapped_page_.block < mem.heap.next
  zero : mem.zero_page_.block < mem.heap.next
  ptr : ∀ addr, (mem.getExprPtrFromMem addr).block < mem.heap.next
  unmapped_cell : ∀ i, mem.heap.cell (mem.unmapped_page_.add i) = none
  zero_cell : ∀ i x, mem.heap.cell (mem.zero_page_.add i) = some x → x = none

/-- The whole pages from `start` on are mapped to the cells from `p` on, which are no
other address's. -/
structure Mapped (start size : Addr) (p : Ptr) : Prop where
  start_aligned : start.toNat % 4096 = 0
  size_aligned : size.toNat % 4096 = 0
  size_pos : 0 < size.toNat
  start_le : start.toNat + size.toNat ≤ 2 ^ 64
  page : mem.getPage start = some p
  ptr : ∀ off < size, mem.getExprPtrFromMem (start + off) = p.add off.toNat
  live : ∀ off < size, mem.heap.cell (p.add off.toNat) ≠ none
  own : ∀ addr, (∀ off < size, addr ≠ start + off) →
    ∀ off < size, mem.getExprPtrFromMem addr ≠ p.add off.toNat

/-- The shadow of a range is moved, and nothing else changes. -/
structure Moved (mem mem' : Paging) (old_start old_size new_start new_size : Addr) : Prop where
  kept : ∀ off < old_size, off < new_size →
    mem'.peek (new_start + off) = mem.peek (old_start + off)
  distinct : ∀ off < new_size, ∀ off' < new_size, off ≠ off' →
    mem'.getExprPtrFromMem (new_start + off) ≠ mem'.getExprPtrFromMem (new_start + off')
  empty : ∀ off < new_size, old_size ≤ off → mem'.peek (new_start + off) = some none
  unmapped : ∀ off < old_size, (∀ off' < new_size, old_start + off ≠ new_start + off') →
    mem'.getPage (old_start + off) = some mem'.unmapped_page_
  other : ∀ addr, (∀ off < old_size, addr ≠ old_start + off) →
    (∀ off < new_size, addr ≠ new_start + off) →
    mem'.getExprPtrFromMem addr = mem.getExprPtrFromMem addr ∧ mem'.peek addr = mem.peek addr

/-! ### Pages -/

variable {mem} {mem' : Paging} {table : Addr → Option Ptr} {start stop addr : Addr}

theorem toNat_roundPageDown (num : Addr) :
    (roundPageDown num).toNat = num.toNat / 4096 * 4096 := by
  have hsize : kPageSize = 4096#64 := rfl
  have hnat : (4096#64).toNat = 4096 := rfl
  rw [roundPageDown, hsize, BitVec.toNat_mul, BitVec.toNat_udiv, hnat]
  have := num.isLt
  omega

theorem addressToPageIndex_roundPageDown (num : Addr) :
    addressToPageIndex (roundPageDown num) = addressToPageIndex num := by
  apply BitVec.eq_of_toNat_eq
  rw [toNat_addressToPageIndex, toNat_addressToPageIndex, toNat_roundPageDown]
  omega

theorem mapPages_apply (table : Addr → Option Ptr) (first last : Addr) (page : Nat → Ptr)
    (i : Addr) : mapPages table first last page i =
      if first ≤ i ∧ i ≤ last then some (page (i.toNat - first.toNat)) else table i := by
  have hloop (n : Nat) (hn : first.toNat + n ≤ 2 ^ 64) :
      (List.range n).foldl (fun table j =>
        Function.update table (first + BitVec.ofNat 64 j) (some (page j))) table i =
      if first.toNat ≤ i.toNat ∧ i.toNat < first.toNat + n then
        some (page (i.toNat - first.toNat)) else table i := by
    induction n with
    | zero => simp
    | succ n ih =>
        rw [List.range_succ, List.foldl_append, List.foldl_cons, List.foldl_nil]
        have hi : (first + BitVec.ofNat 64 n).toNat = first.toNat + n := by
          rw [BitVec.toNat_add, BitVec.toNat_ofNat]
          omega
        by_cases heq : i = first + BitVec.ofNat 64 n
        · have hsub : i.toNat - first.toNat = n := by rw [heq, hi]; omega
          rw [heq, Function.update_self, if_pos (by omega), ← heq, hsub]
        · have hne : i.toNat ≠ first.toNat + n :=
            fun h => heq (BitVec.eq_of_toNat_eq (h.trans hi.symm))
          rw [Function.update_of_ne heq, ih (by omega)]
          split <;> split <;> first | rfl | omega
  rw [mapPages, hloop _ (by have := first.isLt; have := last.isLt; omega)]
  simp only [BitVec.le_def]
  split <;> split <;> first | rfl | omega

theorem getPage_congr {addr' : Addr} (h : addressToPageIndex addr = addressToPageIndex addr') :
    mem.getPage addr = mem.getPage addr' := by
  rw [getPage, getPage, h]

theorem getExprPtrFromMem_of_getPage {page : Ptr} (h : mem.getPage addr = some page) :
    mem.getExprPtrFromMem addr = page.add (addressToOffset addr).toNat := by
  simp [getExprPtrFromMem, h]

theorem toNat_add_of_lt {start size off : Addr} (hle : start.toNat + size.toNat ≤ 2 ^ 64)
    (hoff : off < size) : (start + off).toNat = start.toNat + off.toNat := by
  rw [BitVec.lt_def] at hoff
  rw [BitVec.toNat_add]
  omega

theorem toNat_last {start size : Addr} (hle : start.toNat + size.toNat ≤ 2 ^ 64)
    (hpos : 0 < size.toNat) : (start + size - 1).toNat = start.toNat + size.toNat - 1 := by
  have hone : (1 : Addr).toNat = 1 := rfl
  rw [BitVec.toNat_sub, BitVec.toNat_add, hone]
  omega

/-- An address in a page of a range. -/
theorem index_mem_iff {start size : Addr} (hle : start.toNat + size.toNat ≤ 2 ^ 64)
    (hpos : 0 < size.toNat) :
    (addressToPageIndex start ≤ addressToPageIndex addr ∧
        addressToPageIndex addr ≤ addressToPageIndex (start + size - 1)) ↔
      start.toNat / 4096 ≤ addr.toNat / 4096 ∧
        addr.toNat / 4096 ≤ (start.toNat + size.toNat - 1) / 4096 := by
  simp only [BitVec.le_def, toNat_addressToPageIndex, toNat_last hle hpos]

/-- An address that no offset below `size` leads to is outside the range. -/
theorem forall_ne_iff {start size : Addr} (hle : start.toNat + size.toNat ≤ 2 ^ 64) :
    (∀ off < size, addr ≠ start + off) ↔
      addr.toNat < start.toNat ∨ start.toNat + size.toNat ≤ addr.toNat := by
  constructor
  · intro h
    by_contra hin
    have hoff : (addr - start).toNat = addr.toNat - start.toNat := by
      rw [BitVec.toNat_sub_of_le (BitVec.le_def.2 (by omega))]
    refine h (addr - start) (BitVec.lt_def.2 (by omega)) ?_
    rw [BitVec.add_comm, BitVec.sub_add_cancel]
  · rintro hout off hoff rfl
    rw [toNat_add_of_lt hle hoff] at hout
    rw [BitVec.lt_def] at hoff
    omega

theorem new_wellFormed {vdso : Option (Addr × Addr)} : (new vdso).WellFormed := by
  have hpage (addr : Addr) : (new vdso).getPage addr = none ∨
      (new vdso).getPage addr = some (new vdso).zero_page_ := by
    cases vdso with
    | none => exact .inl rfl
    | some range =>
        simp only [getPage, new, mapPages_apply]
        split
        next => exact .inr rfl
        next => exact .inl rfl
  have hzero : (new vdso).zero_page_.block < (new vdso).heap.next := Nat.lt_succ_self 1
  refine ⟨Nat.zero_lt_succ 1, hzero, fun addr => ?_, fun i => rfl, fun i x hx => ?_⟩
  · rcases hpage addr with h | h
    · rw [getExprPtrFromMem, h]
      exact hzero
    · rw [getExprPtrFromMem_of_getPage h]
      exact hzero
  · simp [new, Heap.alloc, Ptr.add] at hx
    exact hx.2.symm

/-! ### Mapping a range -/

theorem mmap_page (h : mem.mmap start stop = some mem') :
    (roundPageDown stop - roundPageDown start + kPageSize).toNat ≠ 0 ∧
      mem'.unmapped_page_ = mem.unmapped_page_ ∧ mem'.zero_page_ = mem.zero_page_ ∧
      mem'.heap = (mem.heap.alloc
        (roundPageDown stop - roundPageDown start + kPageSize).toNat none).2 ∧
      ∀ addr, mem'.getPage addr =
        if addressToPageIndex start ≤ addressToPageIndex addr ∧
            addressToPageIndex addr ≤ addressToPageIndex stop then
          some (Ptr.add ⟨mem.heap.next, 0⟩ (((addressToPageIndex addr).toNat -
            (addressToPageIndex start).toNat) * 4096))
        else mem.getPage addr := by
  simp only [mmap, allocRWPages, Option.bind_eq_bind, Option.bind_eq_some_iff] at h
  obtain ⟨⟨page, heap⟩, halloc, heq⟩ := h
  split at halloc
  next => cases halloc
  next hlength =>
      cases halloc
      cases heq
      refine ⟨hlength, rfl, rfl, rfl, fun addr => ?_⟩
      simp only [getPage, mapPages_apply, addressToPageIndex_roundPageDown]
      rfl

/-- The shadow of a mapped address lies at its distance from the start of the block. -/
theorem mmap_ptr (h : mem.mmap start stop = some mem') (addr : Addr) :
    mem'.getExprPtrFromMem addr =
      if start.toNat / 4096 ≤ addr.toNat / 4096 ∧ addr.toNat / 4096 ≤ stop.toNat / 4096 then
        Ptr.add ⟨mem.heap.next, 0⟩ (addr.toNat - start.toNat / 4096 * 4096)
      else mem.getExprPtrFromMem addr := by
  obtain ⟨-, -, hzero, -, hpage⟩ := mmap_page h
  simp only [BitVec.le_def, toNat_addressToPageIndex] at hpage
  by_cases hin : start.toNat / 4096 ≤ addr.toNat / 4096 ∧ addr.toNat / 4096 ≤ stop.toNat / 4096
  · have hpage := hpage addr
    rw [if_pos hin] at hpage
    rw [getExprPtrFromMem_of_getPage hpage, if_pos hin, toNat_addressToOffset]
    simp only [Ptr.add, Ptr.mk.injEq, true_and]
    omega
  · rw [if_neg hin, getExprPtrFromMem, getExprPtrFromMem, hpage, if_neg hin, hzero]

theorem WellFormed.mmap (hw : mem.WellFormed) (h : mem.mmap start stop = some mem') :
    mem'.WellFormed := by
  obtain ⟨-, hun, hzero, hheap, -⟩ := mmap_page h
  have hnext : mem'.heap.next = mem.heap.next + 1 := by rw [hheap]; rfl
  refine ⟨?_, ?_, fun addr => ?_, fun i => ?_, fun i x hx => ?_⟩
  · rw [hun, hnext]
    exact Nat.lt_succ_of_lt hw.unmapped
  · rw [hzero, hnext]
    exact Nat.lt_succ_of_lt hw.zero
  · rw [mmap_ptr h, hnext]
    split
    next => exact Nat.lt_succ_self _
    next => exact Nat.lt_succ_of_lt (hw.ptr addr)
  · rw [hun, hheap, Heap.alloc_cell_of_lt (show (Ptr.add _ i).block < _ from hw.unmapped)]
    exact hw.unmapped_cell i
  · rw [hzero, hheap, Heap.alloc_cell_of_lt (show (Ptr.add _ i).block < _ from hw.zero)] at hx
    exact hw.zero_cell i x hx

/-- The cells of the block of a mapped range. -/
theorem toNat_length (hle : start.toNat / 4096 ≤ stop.toNat / 4096)
    (h : (roundPageDown stop - roundPageDown start + kPageSize).toNat ≠ 0) :
    (roundPageDown stop - roundPageDown start + kPageSize).toNat =
      stop.toNat / 4096 * 4096 - start.toNat / 4096 * 4096 + 4096 := by
  have hsize : kPageSize.toNat = 4096 := rfl
  have hsub : roundPageDown start ≤ roundPageDown stop := by
    rw [BitVec.le_def, toNat_roundPageDown, toNat_roundPageDown]
    omega
  rw [BitVec.toNat_add, BitVec.toNat_sub_of_le hsub, toNat_roundPageDown, toNat_roundPageDown,
    hsize] at h ⊢
  have := stop.isLt
  omega

/-- Whole pages of a range that one call maps. -/
theorem mmap_mapped (hw : mem.WellFormed) (h : mem.mmap start stop = some mem')
    {addr size : Addr} (haddr : addr.toNat % 4096 = 0) (hsize : size.toNat % 4096 = 0)
    (hpos : 0 < size.toNat) (hstart : start.toNat / 4096 * 4096 ≤ addr.toNat)
    (hstop : addr.toNat + size.toNat ≤ stop.toNat / 4096 * 4096 + 4096) :
    mem'.Mapped addr size
      (Ptr.add ⟨mem.heap.next, 0⟩ (addr.toNat - start.toNat / 4096 * 4096)) := by
  obtain ⟨hlength, -, -, hheap, hpage⟩ := mmap_page h
  have hle : addr.toNat + size.toNat ≤ 2 ^ 64 := by
    have := stop.isLt
    omega
  have hptr : ∀ off < size, mem'.getExprPtrFromMem (addr + off) = Ptr.add (Ptr.add
      ⟨mem.heap.next, 0⟩ (addr.toNat - start.toNat / 4096 * 4096)) off.toNat := by
    intro off hoff
    have hadd := toNat_add_of_lt hle hoff
    rw [BitVec.lt_def] at hoff
    rw [mmap_ptr h, if_pos (by rw [hadd]; omega), hadd]
    simp only [Ptr.add, Ptr.mk.injEq, true_and]
    omega
  refine ⟨haddr, hsize, hpos, hle, ?_, hptr, ?_, ?_⟩
  · rw [hpage, if_pos]
    · simp only [toNat_addressToPageIndex, Option.some.injEq, Ptr.add, Ptr.mk.injEq, true_and]
      omega
    · simp only [BitVec.le_def, toNat_addressToPageIndex]
      omega
  · intro off hoff
    rw [BitVec.lt_def] at hoff
    rw [hheap, Ptr.add_add, Heap.alloc_cell_new, if_pos]
    · rintro ⟨⟩
    · rw [toNat_length (by omega) hlength]
      omega
  · intro a houtside off hoff heq
    have hnot := (forall_ne_iff hle).1 houtside
    rw [mmap_ptr h] at heq
    rw [BitVec.lt_def] at hoff
    split at heq
    next =>
      simp only [Ptr.add, Ptr.mk.injEq, true_and] at heq
      omega
    next =>
      have hblock := hw.ptr a
      rw [heq] at hblock
      exact Nat.lt_irrefl _ hblock

/-! ### Writing a cell -/

section Poke

variable {e : Option Expr} (h : mem.poke addr e = some mem')
include h

theorem poke_store : (mem.getExprPtrFromMem addr).block ≠ mem.zero_page_.block ∧
    ∃ heap, mem.heap.store (mem.getExprPtrFromMem addr) e = some heap ∧
      mem' = { mem with heap } := by
  unfold poke at h
  simp only [] at h
  split at h
  next => cases h
  next hne =>
      obtain ⟨heap, hs, rfl⟩ := Option.map_eq_some_iff.1 h
      exact ⟨hne, heap, hs, rfl⟩

end Poke

/-! ### The shadow it implements -/

/-- The cells of one page. -/
def pageCells (mem : Paging) (page : Ptr) : Page := fun off =>
  if off < kPageSize then (mem.heap.cell (page.add off.toNat)).getD none else none

/-- The pages without their pointers. -/
def toMemory (mem : Paging) : Memory where
  pageTable i :=
    match mem.page_table_ i with
    | none => none
    | some page =>
        if page = mem.zero_page_ ∨ page = mem.unmapped_page_ then none
        else some (mem.pageCells page)

theorem addressToOffset_lt (addr : Addr) : addressToOffset addr < kPageSize := by
  have hsize : kPageSize.toNat = 4096 := rfl
  rw [BitVec.lt_def, toNat_addressToOffset, hsize]
  exact Nat.mod_lt _ (by decide)

/-- What a cell holds is what the shadow memory holds. -/
theorem toMemory_peek (hw : mem.WellFormed) {x : Option Expr} (h : mem.peek addr = some x) :
    mem.toMemory.peek addr = x := by
  simp only [Memory.peek, Memory.getPage, toMemory]
  rw [peek] at h
  cases hpage : mem.page_table_ (addressToPageIndex addr) with
  | none =>
      have hptr : mem.getExprPtrFromMem addr = mem.zero_page_.add 0 := by
        simp [getExprPtrFromMem, getPage, hpage, Ptr.add]
      rw [hptr] at h
      exact (hw.zero_cell 0 x h).symm
  | some page =>
      rw [getExprPtrFromMem_of_getPage hpage] at h
      by_cases hz : page = mem.zero_page_
      · rw [hz] at h
        simp [hz, hw.zero_cell _ x h]
      · by_cases hu : page = mem.unmapped_page_
        · rw [hu, hw.unmapped_cell] at h
          cases h
        · simp [hz, hu, pageCells, addressToOffset_lt, h]

/-- Writing a cell that is in no other page writes the shadow memory. -/
theorem toMemory_poke (hw : mem.WellFormed) {e : Option Expr}
    (hown : ∀ i page, mem.page_table_ i = some page → i ≠ addressToPageIndex addr →
      ∀ off < kPageSize, page.add off.toNat ≠ mem.getExprPtrFromMem addr)
    (h : mem.poke addr e = some mem') : mem.toMemory.poke addr e = some mem'.toMemory := by
  obtain ⟨hne, heap, hs, rfl⟩ := poke_store h
  obtain ⟨hlive, hcell, -⟩ := Heap.store_eq_some hs
  cases hpage : mem.page_table_ (addressToPageIndex addr) with
  | none => exact absurd (by simp [getExprPtrFromMem, getPage, hpage]) hne
  | some page =>
      rw [getExprPtrFromMem_of_getPage hpage] at hne hlive hcell hown
      have hz : page ≠ mem.zero_page_ := fun heq =>
        hne (show page.block = _ from congrArg Ptr.block heq)
      have hu : page ≠ mem.unmapped_page_ := fun heq => hlive (heq ▸ hw.unmapped_cell _)
      simp only [Memory.poke, Memory.getPage, toMemory, hpage, hz, hu, or_self, if_false,
        Option.some.injEq, Memory.mk.injEq]
      funext i
      by_cases hi : i = addressToPageIndex addr
      · rw [hi, Function.update_self, hpage]
        simp only [hz, hu, or_self, if_false, Option.some.injEq]
        funext off
        by_cases hoff : off = addressToOffset addr
        · rw [hoff, Function.update_self]
          simp [pageCells, addressToOffset_lt, hcell]
        · have hptr : page.add off.toNat ≠ page.add (addressToOffset addr).toNat := fun heq => by
            simp only [Ptr.add, Ptr.mk.injEq, true_and, Nat.add_left_cancel_iff] at heq
            exact hoff (BitVec.eq_of_toNat_eq heq)
          rw [Function.update_of_ne hoff]
          simp [pageCells, hcell, Function.update_of_ne hptr]
      · rw [Function.update_of_ne hi]
        cases hpage' : mem.page_table_ i with
        | none => rfl
        | some page' =>
            have hcells : ({ mem with heap } : Paging).pageCells page' = mem.pageCells page' := by
              funext off
              simp only [pageCells, hcell]
              split
              next hoff => rw [Function.update_of_ne (hown i page' hpage' hi off hoff)]
              next => rfl
            simp only [hcells]

/-! ### Moving a range -/

section Mremap

variable {old_start old_size new_start new_size : Addr} {p : Ptr}

/-- What `mremap` leaves behind. -/
structure Remapped (mem : Paging) (old_start old_size new_start new_size : Addr) (p : Ptr)
    (mem' : Paging) : Prop where
  size_pos : 0 < new_size.toNat
  same : mem'.unmapped_page_ = mem.unmapped_page_ ∧ mem'.zero_page_ = mem.zero_page_
  page : ∀ addr, mem'.getPage addr =
    if addressToPageIndex new_start ≤ addressToPageIndex addr ∧
        addressToPageIndex addr ≤ addressToPageIndex (new_start + new_size - 1) then
      some ⟨mem.heap.next, 0⟩
    else if addressToPageIndex old_start ≤ addressToPageIndex addr ∧
        addressToPageIndex addr ≤ addressToPageIndex (old_start + old_size - 1) then
      some mem.unmapped_page_
    else mem.getPage addr
  copied : ∃ heap, (mem.heap.alloc new_size.toNat none).2.copy ⟨mem.heap.next, 0⟩ p
    old_size.toNat = some heap ∧ mem'.heap = heap.free p old_size.toNat

theorem mremap_remapped (hpage : mem.getPage old_start = some p)
    (h : mem.mremap old_start old_size new_start new_size = some mem') :
    Remapped mem old_start old_size new_start new_size p mem' := by
  simp only [mremap, hpage, Option.bind_eq_bind, Option.bind_some, Option.bind_eq_some_iff] at h
  obtain ⟨⟨new_page, heap⟩, halloc, heap₁, hcopy, heq⟩ := h
  unfold allocRWPages at halloc
  split at halloc
  next => cases halloc
  next hsize =>
      cases halloc
      cases heq
      refine ⟨Nat.pos_of_ne_zero hsize, ⟨rfl, rfl⟩, fun addr => ?_, heap₁, hcopy, rfl⟩
      simp only [getPage, mapPages_apply, addressToPageIndex_roundPageDown]

theorem Mapped.block_lt (h : mem.Mapped old_start old_size p) (hw : mem.WellFormed) :
    p.block < mem.heap.next := by
  have hp := hw.ptr old_start
  rwa [getExprPtrFromMem_of_getPage h.page] at hp

/-- A copy that stays in both blocks has a result. -/
theorem mremap_isSome (hw : mem.WellFormed) (h : mem.Mapped old_start old_size p)
    (hle : old_size.toNat ≤ new_size.toNat) :
    ∃ mem', mem.mremap old_start old_size new_start new_size = some mem' := by
  have hpos : new_size.toNat ≠ 0 := by
    have := h.size_pos
    omega
  have hlt := h.block_lt hw
  have hdst : ∀ i < old_size.toNat, (mem.heap.alloc new_size.toNat none).2.cell
      (Ptr.add ⟨mem.heap.next, 0⟩ i) ≠ none := by
    intro i hi
    rw [Heap.alloc_cell_new, if_pos (Nat.lt_of_lt_of_le hi hle)]
    nofun
  have hsrc : ∀ i < old_size.toNat, (mem.heap.alloc new_size.toNat none).2.cell (p.add i) ≠
      none := by
    intro i hi
    have hoff : (BitVec.ofNat 64 i).toNat = i := by
      rw [BitVec.toNat_ofNat, Nat.mod_eq_of_lt (Nat.lt_trans hi old_size.isLt)]
    have hlive := h.live (BitVec.ofNat 64 i) (BitVec.lt_def.2 (hoff.symm ▸ hi))
    rw [hoff] at hlive
    rwa [Heap.alloc_cell_of_lt (show (p.add i).block < _ from hlt)]
  obtain ⟨heap, hcopy⟩ := Heap.copy_isSome (Nat.ne_of_gt hlt) hdst hsrc
  simp only [mremap, h.page, allocRWPages, if_neg hpos, Option.bind_eq_bind, Option.bind_some,
    Option.bind_eq_some_iff]
  exact ⟨_, heap, hcopy, rfl⟩

variable (hw : mem.WellFormed) (hm : mem.Mapped old_start old_size p)
  (hnew : new_start.toNat + new_size.toNat ≤ 2 ^ 64)
  (hr : Remapped mem old_start old_size new_start new_size p mem')

section

include hnew hr

/-- The pages of the new range all have the start of the new block. -/
theorem Remapped.getPage_new (h : new_start.toNat / 4096 ≤ addr.toNat / 4096 ∧
      addr.toNat / 4096 ≤ (new_start.toNat + new_size.toNat - 1) / 4096) :
    mem'.getPage addr = some ⟨mem.heap.next, 0⟩ := by
  rw [hr.page, if_pos ((index_mem_iff hnew hr.size_pos).2 h)]

include hw

/-- After a faithful move the pages of the new range hold nothing else. -/
theorem Remapped.mem_new (hmoved : Moved mem mem' old_start old_size new_start new_size)
    (h : new_start.toNat / 4096 ≤ addr.toNat / 4096 ∧
      addr.toNat / 4096 ≤ (new_start.toNat + new_size.toNat - 1) / 4096) :
    new_start.toNat ≤ addr.toNat ∧ addr.toNat < new_start.toNat + new_size.toNat := by
  have hpage := hr.getPage_new hnew h
  by_contra hout
  have houtside : ∀ off < new_size, addr ≠ new_start + off := (forall_ne_iff hnew).2 (by omega)
  by_cases hold : ∀ off < old_size, addr ≠ old_start + off
  · -- outside both ranges, but its page is new
    have hptr := (hmoved.other addr hold houtside).1
    have hlt := hw.ptr addr
    rw [← hptr, getExprPtrFromMem_of_getPage hpage] at hlt
    exact Nat.lt_irrefl _ hlt
  · -- left behind, but its page is mapped
    simp only [not_forall, not_not] at hold
    obtain ⟨off, hoff, rfl⟩ := hold
    have hun := hmoved.unmapped off hoff houtside
    rw [hpage, hr.same.1] at hun
    have hlt := hw.unmapped
    rw [← Option.some.inj hun] at hlt
    exact Nat.lt_irrefl _ hlt

include hm

/-- A faithful move is of one page to one page. -/
theorem Remapped.one_page (hmoved : Moved mem mem' old_start old_size new_start new_size) :
    new_start.toNat % 4096 = 0 ∧ old_size.toNat = 4096 ∧ new_size.toNat = 4096 := by
  have hpos := hr.size_pos
  have haligned : new_start.toNat % 4096 = 0 := by
    by_contra hne
    have hprev : (new_start - 1).toNat = new_start.toNat - 1 := by
      rw [BitVec.toNat_sub_of_le (BitVec.le_def.2 (by show 1 ≤ _; omega))]
      rfl
    have h := hr.mem_new hw hnew hmoved (by rw [hprev]; omega)
    rw [hprev] at h
    omega
  have hle : ¬ 4096 < new_size.toNat := by
    intro hgt
    have hoff : (4096 : Addr) < new_size := BitVec.lt_def.2 hgt
    have hadd : (new_start + 4096).toNat = new_start.toNat + 4096 := toNat_add_of_lt hnew hoff
    have hzero : (new_start + 0).toNat = new_start.toNat := by simp
    have h0 : mem'.getPage (new_start + 0) = _ := hr.getPage_new hnew (by rw [hzero]; omega)
    have h1 : mem'.getPage (new_start + 4096) = _ := hr.getPage_new hnew (by rw [hadd]; omega)
    refine hmoved.distinct 0 (BitVec.lt_def.2 hpos) 4096 hoff (by decide) ?_
    rw [getExprPtrFromMem_of_getPage h0, getExprPtrFromMem_of_getPage h1, toNat_addressToOffset,
      toNat_addressToOffset, hadd, hzero, Nat.add_mod_right]
  have hge : ¬ new_size.toNat < 4096 := by
    intro hlt
    have hadd : (new_start + new_size).toNat = new_start.toNat + new_size.toNat := by
      rw [BitVec.toNat_add]
      omega
    have h := hr.mem_new hw hnew hmoved (by rw [hadd]; omega)
    rw [hadd] at h
    omega
  have hold : ¬ new_size.toNat < old_size.toNat := by
    intro hlt
    obtain ⟨heap, hcopy, -⟩ := hr.copied
    have hlive := (Heap.live_of_copy (Nat.ne_of_gt (hm.block_lt hw)) hcopy new_size.toNat hlt).1
    rw [Heap.alloc_cell_new, if_neg (Nat.lt_irrefl _)] at hlive
    exact hlive rfl
  have := hm.size_pos
  have := hm.size_aligned
  omega

/-- One page is moved to one page. -/
theorem Remapped.moved (halign : new_start.toNat % 4096 = 0) (hold : old_size.toNat = 4096)
    (hsize : new_size.toNat = 4096) : Moved mem mem' old_start old_size new_start new_size := by
  obtain ⟨heap, hcopy, hheap⟩ := hr.copied
  have hlt := hm.block_lt hw
  have hle := hm.start_le
  have hstart := hm.start_aligned
  obtain ⟨-, hin, hout⟩ := Heap.copy_eq_some (Nat.ne_of_gt hlt) hcopy
  -- the pointers of the new range, and what they hold
  have hptr : ∀ off < new_size,
      mem'.getExprPtrFromMem (new_start + off) = Ptr.add ⟨mem.heap.next, 0⟩ off.toNat := by
    intro off hoff
    have hadd := toNat_add_of_lt hnew hoff
    rw [BitVec.lt_def] at hoff
    rw [getExprPtrFromMem_of_getPage (hr.getPage_new hnew (by rw [hadd]; omega)),
      toNat_addressToOffset, hadd]
    congr 1
    omega
  have hcell : ∀ off < new_size, mem'.heap.cell (Ptr.add ⟨mem.heap.next, 0⟩ off.toNat) =
      mem.heap.cell (p.add off.toNat) := by
    intro off hoff
    rw [BitVec.lt_def] at hoff
    rw [hheap, Heap.free_cell_of_ne (Nat.ne_of_gt hlt), hin _ (by omega),
      Heap.alloc_cell_of_lt (show (p.add _).block < _ from hlt)]
  refine ⟨?_, ?_, ?_, ?_, ?_⟩
  · intro off hoff hoff'
    rw [peek, peek, hptr off hoff', hcell off hoff', hm.ptr off hoff]
  · intro off hoff off' hoff' hne heq
    rw [hptr off hoff, hptr off' hoff'] at heq
    simp only [Ptr.add, Ptr.mk.injEq, Nat.zero_add, true_and] at heq
    exact hne (BitVec.eq_of_toNat_eq heq)
  · intro off hoff hge
    rw [BitVec.lt_def] at hoff
    rw [BitVec.le_def] at hge
    omega
  · intro off hoff houtside
    have hadd := toNat_add_of_lt hle hoff
    have hnot := (forall_ne_iff hnew).1 houtside
    rw [BitVec.lt_def] at hoff
    rw [hr.page, if_neg, if_pos, hr.same.1]
    · rw [index_mem_iff hle hm.size_pos]
      omega
    · rw [index_mem_iff hnew hr.size_pos]
      omega
  · intro addr houtside houtside'
    have hnot := (forall_ne_iff hle).1 houtside
    have hnot' := (forall_ne_iff hnew).1 houtside'
    have hpage : mem'.getPage addr = mem.getPage addr := by
      rw [hr.page, if_neg, if_neg]
      · rw [index_mem_iff hle hm.size_pos]
        omega
      · rw [index_mem_iff hnew hr.size_pos]
        omega
    have hsame : mem'.getExprPtrFromMem addr = mem.getExprPtrFromMem addr := by
      rw [getExprPtrFromMem, getExprPtrFromMem, hpage, hr.same.2]
    have hblock := hw.ptr addr
    refine ⟨hsame, ?_⟩
    have hnew_block : ∀ i < old_size.toNat,
        mem.getExprPtrFromMem addr ≠ Ptr.add ⟨mem.heap.next, 0⟩ i := fun i _ heq =>
      Nat.ne_of_lt hblock (congrArg Ptr.block heq)
    have hfreed : ∀ i < old_size.toNat, mem.getExprPtrFromMem addr ≠ p.add i := by
      intro i hi
      have hoff : (BitVec.ofNat 64 i).toNat = i := by
        rw [BitVec.toNat_ofNat, Nat.mod_eq_of_lt (Nat.lt_trans hi old_size.isLt)]
      exact hoff ▸ hm.own addr houtside (BitVec.ofNat 64 i) (BitVec.lt_def.2 (hoff.symm ▸ hi))
    rw [peek, peek, hsame, hheap, Heap.free_cell_of_forall_ne hfreed, hout _ hnew_block,
      Heap.alloc_cell_of_lt hblock]

end

/-- **Moving a range.** `mremap` moves the shadow of a range faithfully, and stays within
both blocks, exactly when one page moves to one page. -/
theorem mremap_moved_iff (hw : mem.WellFormed) (hm : mem.Mapped old_start old_size p)
    (hnew : new_start.toNat + new_size.toNat ≤ 2 ^ 64) :
    (∃ mem', mem.mremap old_start old_size new_start new_size = some mem' ∧
        Moved mem mem' old_start old_size new_start new_size) ↔
      new_start.toNat % 4096 = 0 ∧ old_size.toNat = 4096 ∧ new_size.toNat = 4096 := by
  constructor
  · rintro ⟨mem', h, hmoved⟩
    exact (mremap_remapped hm.page h).one_page hw hm hnew hmoved
  · rintro ⟨halign, hold, hsize⟩
    have hle : old_size.toNat ≤ new_size.toNat := (hold.trans hsize.symm).le
    obtain ⟨mem', h⟩ : ∃ mem', mem.mremap old_start old_size new_start new_size = some mem' :=
      mremap_isSome hw hm hle
    exact ⟨mem', h, (mremap_remapped hm.page h).moved hw hm hnew halign hold hsize⟩

/-- Growing one page to two, as the test of `mremap` does: the two pages share their cells. -/
theorem mremap_not_moved : ∃ mem, (new none).mmap 0x10000 0x10fff = some mem ∧
    mem.Mapped 0x10000 0x1000 ⟨2, 0⟩ ∧
      ¬ ∃ mem', mem.mremap 0x10000 0x1000 0x20000 0x2000 = some mem' ∧
        Moved mem mem' 0x10000 0x1000 0x20000 0x2000 := by
  obtain ⟨mem, hmap⟩ : ∃ mem, (new none).mmap 0x10000 0x10fff = some mem := ⟨_, rfl⟩
  have hm : mem.Mapped 0x10000 0x1000 ⟨2, 0⟩ :=
    mmap_mapped new_wellFormed hmap rfl rfl (by decide) (by decide) (by decide)
  refine ⟨mem, hmap, hm, ?_⟩
  rintro ⟨mem', h, hmoved⟩
  have hone := (mremap_remapped hm.page h).one_page (new_wellFormed.mmap hmap) hm (by decide) hmoved
  exact absurd hone.2.2 (by decide)

/-- One page that moves to another place. -/
theorem mremap_moved_one : ∃ mem, (new none).mmap 0x10000 0x13fff = some mem ∧
    ∃ mem', mem.mremap 0x11000 0x1000 0x20000 0x1000 = some mem' ∧
      Moved mem mem' 0x11000 0x1000 0x20000 0x1000 := by
  obtain ⟨mem, hmap⟩ : ∃ mem, (new none).mmap 0x10000 0x13fff = some mem := ⟨_, rfl⟩
  have hm : mem.Mapped 0x11000 0x1000 ⟨2, 0x1000⟩ :=
    mmap_mapped new_wellFormed hmap rfl rfl (by decide) (by decide) (by decide)
  exact ⟨mem, hmap, (mremap_moved_iff (new_wellFormed.mmap hmap) hm (by decide)).2 (by decide)⟩

end Mremap

end Paging

end Qsym
