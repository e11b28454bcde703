import Qsym.Builder.Pruned
import Qsym.Shadow.Cells

/-!
# Qsym.Shadow.Memory

`Memory`: a page table of shadow pages, with one cell for each byte. Addresses whose
page is not in the table read as the zero page and may not be written; the pages of
the vdso behave the same way, so they are left out of the table as well.

On mapped addresses shadow memory is a little-endian map, over any sequence of
writes, clears and reads (`getExprFromMem_littleEndian`). The one condition is that
the extracts which take a stored expression apart fold no division inexactly.
-/

namespace Qsym

open Procedure Qsym.Expr

/-- `ADDRINT` -/
abbrev Addr := BitVec 64

/-- `kPageShift` -/
def kPageShift : Nat := 12

/-- `kPageMask` -/
def kPageMask : Addr := BitVec.ofNat 64 (2 ^ kPageShift - 1)

def addressToPageIndex (addr : Addr) : Addr :=
  addr >>> kPageShift

def addressToOffset (addr : Addr) : Addr :=
  addr &&& kPageMask

/-- The cells of a page, by their offset. -/
abbrev Page := Addr → Option Expr

/-- The part of `Memory` that the shadow is kept in. -/
structure Memory where
  /-- `page_table_` -/
  pageTable : Addr → Option Page

theorem toNat_addressToOffset (addr : Addr) : (addressToOffset addr).toNat = addr.toNat % 4096 := by
  show (addr &&& 4095#64).toNat = _
  rw [BitVec.toNat_and]
  exact Nat.and_two_pow_sub_one_eq_mod addr.toNat 12

theorem toNat_addressToPageIndex (addr : Addr) :
    (addressToPageIndex addr).toNat = addr.toNat / 4096 := by
  rw [addressToPageIndex, BitVec.toNat_ushiftRight, Nat.shiftRight_eq_div_pow]
  rfl

/-- An address is its page and its offset. -/
theorem address_ext {a a' : Addr} (hp : addressToPageIndex a = addressToPageIndex a')
    (ho : addressToOffset a = addressToOffset a') : a = a' := by
  have hp := congrArg BitVec.toNat hp
  have ho := congrArg BitVec.toNat ho
  rw [toNat_addressToPageIndex, toNat_addressToPageIndex] at hp
  rw [toNat_addressToOffset, toNat_addressToOffset] at ho
  exact BitVec.eq_of_toNat_eq (by omega)

namespace Memory

def getPage (mem : Memory) (addr : Addr) : Option Page :=
  mem.pageTable (addressToPageIndex addr)

/-- `*getExprPtrFromMem(addr)`; the zero page holds nothing. -/
def peek (mem : Memory) (addr : Addr) : Option Expr :=
  match mem.getPage addr with
  | none => none
  | some page => page (addressToOffset addr)

/-- `*getExprPtrFromMem(addr) = e`; the zero page is read-only. -/
def poke (mem : Memory) (addr : Addr) (e : Option Expr) : Option Memory :=
  match mem.getPage addr with
  | none => none
  | some page =>
      some { pageTable := Function.update mem.pageTable (addressToPageIndex addr)
               (some (Function.update page (addressToOffset addr) e)) }

/-- The cells of shadow memory. -/
def cells : Cells Memory Addr where
  peek := peek
  poke := poke
  peek_poke {mem addr e mem'} h := by
    unfold poke at h
    split at h
    next => cases h
    next page _ =>
        cases h
        simp only [peek, getPage, Function.update_self]
  peek_poke_ne {mem addr e mem' addr'} h hne := by
    unfold poke at h
    split at h
    next => cases h
    next page hpage =>
        cases h
        simp only [peek, getPage] at hpage ⊢
        by_cases hp : addressToPageIndex addr' = addressToPageIndex addr
        · have ho : addressToOffset addr' ≠ addressToOffset addr := fun ho =>
            hne (address_ext hp ho)
          rw [hp, Function.update_self, hpage]
          simp only [Function.update_of_ne ho]
        · rw [Function.update_of_ne hp]
  poke_isSome {mem addr} e h := by
    unfold peek at h
    unfold poke
    split at h
    next => cases h
    next => rfl

/-- Both have pages for the same addresses. -/
def SamePages (mem mem' : Memory) : Prop :=
  ∀ addr, mem'.getPage addr = none ↔ mem.getPage addr = none

/-- The addresses `addr`, …, `addr + size - 1`. -/
def addresses (addr : Addr) (size : Nat) : List Addr :=
  (List.range size).map fun i => addr + BitVec.ofNat 64 i

variable (b : ExprBuilder) (mem : Memory) (addr : Addr)

/-- `getExprFromMem(addr, size)`, where `machine` is what the process holds. -/
def getExprFromMem (machine : Addr → BitVec 8) (size : Nat) : Build (Option Expr × Memory) :=
  cells.getExprs b mem machine (addresses addr size)

/-- `setExprToMem(addr, e)` of one byte -/
def setByteToMem (e : Option Expr) : Build Memory :=
  cells.setExpr mem addr e

/-- `setExprToMem(addr, size, e)` -/
def setExprToMem (size : Nat) (e : Option Expr) : Build Memory :=
  cells.setExprs b mem (addresses addr size) e

/-- `clearExprFromMem(addr, size)` -/
def clearExprFromMem (size : Nat) : Build Memory :=
  cells.clearExprs mem (addresses addr size)

/-! ### Pages -/

namespace SamePages

variable {mem mem' mem'' : Memory}

theorem refl (mem : Memory) : SamePages mem mem :=
  fun _ => Iff.rfl

theorem trans (h : SamePages mem mem') (h' : SamePages mem' mem'') : SamePages mem mem'' :=
  fun addr => (h' addr).trans (h addr)

/-- A store adds no page. -/
theorem poke {a : Addr} {x : Option Expr} (h : SamePages mem mem')
    (hpoke : mem'.poke a x = some mem'') :
    SamePages mem mem'' := by
  refine h.trans fun addr => ?_
  unfold Memory.poke at hpoke
  split at hpoke
  next => cases hpoke
  next page hpage =>
      cases hpoke
      unfold getPage at hpage ⊢
      by_cases hindex : addressToPageIndex addr = addressToPageIndex a
      · simp only [hindex, Function.update_self, hpage, reduceCtorEq]
      · simp only [Function.update_of_ne hindex]

end SamePages

/-! ### Runs -/

/-- The memories that sequences of calls lead to, each with what was last written to
every byte. The calls that take an expression apart only come to calls in `ok`. -/
inductive Reached (σ : Session) (ok : MethodCall → Prop) :
    Memory → World → Bytes.Map Addr Input → Prop
  /-- Mapped pages hold nothing at first. -/
  | start {mem : Memory} (w : World) (h : ∀ addr, mem.peek addr = none) :
      Reached σ ok mem w fun _ => none
  | set {mem mem' : Memory} {w w' : World} {m : Bytes.Map Addr Input} {addr : Addr}
      {size n : Nat} {e : Expr} (h : Reached σ ok mem w m) (he : e.IsBV n) (ht : e.Trimmed)
      (hsize : size * 8 ≤ n)
      (hsafe : Safe (body σ) ok
        (mem.setExprToMem SymbolicExprBuilder.chain addr size (some e)) w)
      (hr : Runs (body σ) (mem.setExprToMem SymbolicExprBuilder.chain addr size (some e))
        w mem' w') :
      Reached σ ok mem' w' (m.store e.value 0 (addresses addr size))
  | setByte {mem mem' : Memory} {w w' : World} {m : Bytes.Map Addr Input} {addr : Addr}
      {e : Expr} (h : Reached σ ok mem w m) (he : e.IsBV 8) (ht : e.Trimmed)
      (hr : Runs (body σ) (mem.setByteToMem addr (some e)) w mem' w') :
      Reached σ ok mem' w' (Function.update m addr (some e.value))
  | clear {mem mem' : Memory} {w w' : World} {m : Bytes.Map Addr Input} {addr : Addr}
      {size : Nat} (h : Reached σ ok mem w m)
      (hr : Runs (body σ) (mem.clearExprFromMem addr size) w mem' w') :
      Reached σ ok mem' w' (m.erase (addresses addr size))
  | get {mem mem' : Memory} {w w' : World} {m : Bytes.Map Addr Input} {addr : Addr}
      {size : Nat} {machine : Addr → BitVec 8} {x : Option Expr} (h : Reached σ ok mem w m)
      (hm : Consistent σ m machine (addresses addr size))
      (hr : Runs (body σ) (mem.getExprFromMem SymbolicExprBuilder.chain addr machine size)
        w (x, mem') w') :
      Reached σ ok mem' w' m

/-- Whatever is done, the cells stand for what was written. -/
theorem Reached.shadows {σ : Session} {mem : Memory} {w : World} {m : Bytes.Map Addr Input}
    (h : Reached σ (FoldsExactly fun _ => True) mem w m) : Shadows cells mem m := by
  induction h with
  | @start mem w h =>
      intro addr
      rw [show cells.peek mem addr = none from h addr]
      exact nofun
  | set _ he ht hsize hsafe hr ih =>
      refine Cells.setBytes_yields he ht ?_ ih _ _ _ hsafe hr
      rwa [Nat.zero_add, addresses, List.length_map, List.length_range]
  | @setByte mem mem' w w' m addr e _ he ht hr ih =>
      have hx : Composed 1 e.value e := ⟨ht, he, fun _ => rfl⟩
      exact ih.update hx ((cells.setExpr_yields mem addr e).result hr)
  | clear _ hr ih => exact ih.erase ((Yields.of_total (cells.clearExprs_builds _ _)).result hr)
  | get _ hm hr ih => exact ((Yields.of_total (cells.getExprs_builds ih hm.at)).result hr).shadows

/-- What `getExprFromMem` answers: nothing if no byte of the range holds an expression
that depends on the input, and otherwise the little-endian number of the bytes last
written and of those the machine holds. -/
def ReadsLittleEndian (σ : Session) (mem : Memory) (w : World) (m : Bytes.Map Addr Input)
    (machine : Addr → BitVec 8) (addr : Addr) (size : Nat) : Prop :=
  ∃ x mem' w',
    Runs (body σ) (mem.getExprFromMem SymbolicExprBuilder.chain addr machine size) w (x, mem') w' ∧
      (x = none ↔ ∀ a ∈ addresses addr size, ∀ e, mem.peek a = some e → e.getDeps = ∅) ∧
      ∀ e, x = some e → e.IsBV (size * 8) ∧
        ∀ ρ, e.value ρ = m.read (fun a => (machine a).toNat) (addresses addr size) ρ

/-- **Shadow memory is a little-endian map**, as long as the writes fold their
divisions exactly. -/
theorem getExprFromMem_littleEndian {σ : Session} {mem : Memory} {w : World}
    {m : Bytes.Map Addr Input} (h : Reached σ (FoldsExactly fun _ => True) mem w m)
    {machine : Addr → BitVec 8} {addr : Addr} {size : Nat}
    (hm : Consistent σ m machine (addresses addr size)) :
    ReadsLittleEndian σ mem w m machine addr size := by
  have hread : Builds σ anyCall _ _ := cells.getExprs_builds h.shadows hm.at
  obtain ⟨⟨x, mem'⟩, w', hr, -, hx⟩ := hread w trivial fun _ _ => trivial
  have hlen : (addresses addr size).length = size := by simp [addresses]
  refine ⟨x, mem', w', hr, hx.none_iff, fun e he => ?_⟩
  have hc := hx.composed e he
  rw [hlen] at hc
  exact ⟨hc.isBV, hc.value⟩

/-- A memory with one page, and nothing in it. -/
def onePage : Memory :=
  { pageTable := fun i => if i = 0 then some fun _ => none else none }

theorem onePage_reached (σ : Session) (ok : MethodCall → Prop) (w : World) :
    Reached σ ok onePage w fun _ => none := by
  refine .start w fun addr => ?_
  unfold peek getPage onePage
  dsimp only
  split
  next => rfl
  next page hpage =>
      split at hpage
      · exact Option.some.inj hpage ▸ rfl
      · cases hpage

/-- A program that returns at some depth has an outcome. -/
theorem exists_runs {σ : Session} {α : Type} {p : Build α} {w : World} {n : Nat}
    (h : (p.run (exec (body σ) n) w).isSome = true) : ∃ a w', Runs (body σ) p w a w' := by
  obtain ⟨⟨a, w'⟩, hr⟩ := Option.isSome_iff_exists.1 h
  exact ⟨a, w', n, hr⟩

/-- A value that is zero on the input, over zero bytes. -/
theorem consistent_store {σ : Session} {N : Input → Nat} (h : N σ.input = 0) (as as' : List Addr) :
    Consistent σ (Bytes.Map.store N 0 as fun _ => none) (fun _ => 0) as' := by
  intro a _ f hf
  obtain hf | ⟨j, rfl⟩ := Bytes.Map.store_eq_some hf
  · cases hf
  · simp [h, Bytes.byte]

/-- A store of an expression that does not divide folds nothing. -/
theorem setExprToMem_safe {σ : Session} (E : Input → Prop) {e : Expr} (he : e.Covered σ)
    (mem : Memory) (addr : Addr) (size : Nat) (w : World) :
    Safe (body σ) (FoldsExactly E)
      (mem.setExprToMem SymbolicExprBuilder.chain addr size (some e)) w := by
  have hstays := cells.setBytes_stays (b := SymbolicExprBuilder.chain) he mem 0
      (addresses addr size)
  exact fun m hm => foldsExactly_of_covers (hstays.safe σ w m hm) E

/-- Two input bytes, written as one value. -/
def bytePair : Expr :=
  .concat 0 (.read 1) (.read 0)

/-- The second of the two bytes, with a machine byte above it. -/
theorem getExprFromMem_littleEndian_pair : ∃ mem w,
    ReadsLittleEndian quietSession mem w
      (Bytes.Map.store bytePair.value 0 (addresses 0 2) fun _ => none) (fun _ => 0) 1 2 := by
  have hp : bytePair.IsBV 16 := ⟨by decide, rfl, rfl⟩
  obtain ⟨mem, w, hr⟩ := exists_runs (σ := quietSession) (n := 20) (w := freshWorld 1)
    (p := onePage.setExprToMem SymbolicExprBuilder.chain 0 2 (some bytePair)) (by decide +kernel)
  have hcov : bytePair.Covered quietSession := by simp [bytePair, Covered, Over, quietSession]
  refine ⟨mem, w, getExprFromMem_littleEndian (.set (onePage_reached _ _ _) hp ⟨trivial, trivial⟩
    (Nat.le_refl 16) (setExprToMem_safe _ hcov _ _ _ _) hr) (consistent_store rfl _ _)⟩

/-- The quotient of a quotient, over sixteen bits. -/
def wideQuotient : Expr :=
  .binary 4 .udiv (.ext 2 .zext byteQuotient 16) (.constant 3 16 16)

/-- Write the quotient and read its low byte. -/
def writeThenRead : Build (Option Expr × Memory) := do
  let mem ← onePage.setExprToMem SymbolicExprBuilder.chain 0 2 (some wideQuotient)
  mem.getExprFromMem SymbolicExprBuilder.chain 0 (fun _ => 0) 1

theorem writeThenRead_run : (writeThenRead.run (exec (body quietSession) 40) (freshWorld 5)).map
    (fun x => x.1.1.map fun e => e.value fun _ => 255) = some (some 255) := by
  decide +kernel

/-- Under the byte 255 the low byte of `255 / 16 / 16` is 0, but what is read is `255 / 0`. -/
theorem getExprFromMem_not_littleEndian : ∃ mem w m,
    Reached quietSession anyCall mem w m ∧ Consistent quietSession m (fun _ => 0) (addresses 0 1) ∧
      ¬ ReadsLittleEndian quietSession mem w m (fun _ => 0) 0 1 := by
  obtain ⟨mem, w, hr⟩ := exists_runs (σ := quietSession) (n := 40) (w := freshWorld 5)
    (p := onePage.setExprToMem SymbolicExprBuilder.chain 0 2 (some wideQuotient))
      (by decide +kernel)
  have he : wideQuotient.IsBV 16 := ⟨by decide, rfl, rfl⟩
  have ht : wideQuotient.Trimmed := by simp [wideQuotient, byteQuotient, Trimmed]
  refine ⟨mem, w, _, .set (onePage_reached _ _ _) he ht (Nat.le_refl 16) (fun _ _ => trivial) hr,
    consistent_store (by decide +kernel) _ _, ?_⟩
  rintro ⟨x, mem', w', hget, -, hx⟩
  have hrun : Runs (body quietSession) writeThenRead (freshWorld 5) (x, mem') w' :=
    Runs.bind_iff.2 ⟨mem, w, hr, hget⟩
  have hval := hrun.eq_of_run (f := fun x => x.1.map fun e => e.value fun _ => 255)
    writeThenRead_run
  obtain ⟨e, rfl, he⟩ := Option.map_eq_some_iff.1 hval
  have hread := (hx e rfl).2 fun _ => 255
  exact absurd (he.symm.trans hread) (by decide +kernel)

end Memory

end Qsym
