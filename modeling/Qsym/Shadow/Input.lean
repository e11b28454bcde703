import Qsym.Shadow.Memory

/-!
# Qsym.Shadow.Input

The **input in memory**. When a system call has put bytes of the input into a buffer, `makeExpr`
gives each byte the expression of the one that it is, counting from the file offset, which moves
on. -/

namespace Qsym

open Procedure

/-- `Memory` with the file offset. -/
structure InputMemory where
  memory : Memory
  off_ : Addr

namespace InputMemory

/-- The input byte at a file offset. `ReadExpr` takes the lowest 32 bits of it. -/
def index (off : Addr) : Nat :=
  (off.setWidth 32).toNat

variable (b : ExprBuilder) (m : InputMemory)

/-- `makeExpr(addr)` -/
def makeByteExpr (addr : Addr) : Build InputMemory := do
  let e ← b.create (.read (index m.off_))
  let memory ← m.memory.setByteToMem addr (some e)
  return { memory, off_ := m.off_ + 1 }

/-- `makeExpr(addr, size)`. The size is signed. -/
def makeExpr (addr : Addr) (size : BitVec 32) : Build InputMemory :=
  (Memory.addresses addr size.toInt.toNat).foldlM (fun m addr => m.makeByteExpr b addr) m

/-! ### What is left in memory -/

variable {b m} {σ : Session} {ok : MethodCall → Prop} {addr : Addr} {size : BitVec 32}

/-- Reads pass through to the base layer, which keeps one node for each offset. -/
theorem createRead_builds (off : Nat) :
    Builds σ ok (SymbolicExprBuilder.chain.create (.read off)) (· = .read off) :=
  builds_create fun _ => builds_create fun _ => builds_create fun _ => builds_create fun _ =>
    builds_create fun _ => builds_create fun _ => .ret rfl

/-- What `size` calls from the file offset `off` on leave at an address. -/
def received (mem : Memory) (off addr : Addr) (n : Nat) (a : Addr) : Option Expr :=
  if (a - addr).toNat < n then some (.read (index (off + (a - addr)))) else mem.peek a

theorem makeByteExpr_yields (m : InputMemory) (addr : Addr) :
    Yields (body σ) ok (m.makeByteExpr SymbolicExprBuilder.chain addr) fun m' =>
      m'.off_ = m.off_ + 1 ∧ m'.memory.peek addr = some (.read (index m.off_)) ∧
        ∀ a, a ≠ addr → m'.memory.peek a = m.memory.peek a := by
  refine Yields.bind (Yields.of_total (createRead_builds _)) fun e he => ?_
  refine Yields.bind (Memory.cells.setExpr_yields m.memory addr e) fun mem ⟨hset, hsame⟩ => ?_
  exact .ret ⟨rfl, he ▸ hset, hsame⟩

theorem addresses_succ (addr : Addr) (n : Nat) :
    Memory.addresses addr (n + 1) = addr :: Memory.addresses (addr + 1) n := by
  have hstep (i : Nat) : addr + BitVec.ofNat 64 (i + 1) = addr + 1 + BitVec.ofNat 64 i := by
    rw [BitVec.ofNat_add, BitVec.add_comm (BitVec.ofNat 64 i), ← BitVec.add_assoc]
    rfl
  rw [Memory.addresses, List.range_succ_eq_map, List.map_cons, List.map_map]
  exact congrArg₂ List.cons (BitVec.add_zero addr) (List.map_congr_left fun i _ => hstep i)

/-- The loop over the addresses. -/
theorem makeExprs_yields (m : InputMemory) (addr : Addr) {n : Nat} (hn : n ≤ 2 ^ 64) :
    Yields (body σ) ok
      ((Memory.addresses addr n).foldlM
        (fun m addr => m.makeByteExpr SymbolicExprBuilder.chain addr) m)
      fun m' => m'.off_ = m.off_ + BitVec.ofNat 64 n ∧
        ∀ a, m'.memory.peek a = received m.memory m.off_ addr n a := by
  induction n generalizing m addr with
  | zero => exact .ret ⟨by simp, fun a => by simp [received]⟩
  | succ n ih =>
      rw [addresses_succ, List.foldlM_cons]
      refine (makeByteExpr_yields m addr).bind fun m₁ ⟨hoff, hset, hsame⟩ => ?_
      refine (ih m₁ (addr + 1) (by omega)).mono fun m' ⟨hoff', hpeek⟩ => ⟨?_, fun a => ?_⟩
      · rw [hoff', hoff, BitVec.ofNat_add, BitVec.add_comm (BitVec.ofNat 64 n), ← BitVec.add_assoc]
        rfl
      · have hlast : (a - (addr + 1)).toNat < n ↔ a ≠ addr ∧ (a - addr).toNat < n + 1 := by
          bv_omega
        have hindex : m₁.off_ + (a - (addr + 1)) = m.off_ + (a - addr) := by
          rw [hoff]
          bv_omega
        rw [hpeek, received, received, hindex]
        by_cases ha : a = addr
        · subst ha
          simp [hset]
        · simp only [hlast, ha, ne_eq, not_false_eq_true, true_and, hsame a ha]

/-- **`makeExpr`.** The buffer has the input bytes from the file offset on, and nothing else
changes. -/
theorem makeExpr_yields (m : InputMemory) (addr : Addr) (size : BitVec 32) :
    Yields (body σ) ok (m.makeExpr SymbolicExprBuilder.chain addr size) fun m' =>
      m'.off_ = m.off_ + BitVec.ofNat 64 size.toInt.toNat ∧
        ∀ a, m'.memory.peek a = received m.memory m.off_ addr size.toInt.toNat a := by
  have hsize := BitVec.toInt_lt (x := size)
  exact makeExprs_yields m addr (by omega)

end InputMemory

end Qsym
