import Qsym.Shadow.Memory

/-!
# Qsym.Shadow.Registers

The shadow registers of `ThreadContext`: one array of cells in which every full
register has its bytes one after the other, and views of a register (`AL`, `AH`, `AX`,
`EAX`, an `XMM` of a `YMM`) are ranges of these cells.

The table of registers is Pin's, so it is a parameter (`Pin`), and what is used of it
are the documented facts `Pin.Documented`.
-/

namespace Qsym

open Procedure Qsym.Expr

/-- The registers as Pin knows them. -/
structure Pin (Reg : Type) where
  /-- From `REG_GR_BASE` up to `REG_LAST`, each once. -/
  regs : List Reg
  regFullRegName : Reg → Reg
  regSize : Reg → Nat
  regIsGr : Reg → Bool
  regIsXmm : Reg → Bool
  regIsYmm : Reg → Bool
  regIsGr32 : Reg → Bool
  regIsUpper8 : Reg → Bool
  regInstPtr : Reg

/-- The cells of `reg_exprs_`. -/
abbrev RegExprs := Nat → Option Expr

/-- The cells of the shadow registers. The array covers the interesting registers, and
their addresses stay inside. -/
def RegExprs.cells : Cells RegExprs Nat where
  peek s addr := s addr
  poke s addr e := some (Function.update s addr e)
  peek_poke h := by
    cases h
    exact Function.update_self ..
  peek_poke_ne h hne := by
    cases h
    exact Function.update_of_ne hne ..
  poke_isSome _ _ := rfl

namespace Pin

variable {Reg : Type} [DecidableEq Reg] (P : Pin Reg)

/-! ### The table of registers -/

/-- `isInterestingReg` -/
def isInterestingReg (r : Reg) : Bool :=
  if P.regFullRegName r ≠ r then false
  else P.regIsGr r || P.regIsXmm r || P.regIsYmm r || r == P.regInstPtr

/-- The loop of `initializeMapRegToAddr` from index `idx` on. -/
def initializeMapRegToAddr : Nat → List Reg → List (Reg × Nat)
  | _, [] => []
  | idx, r :: rs =>
      if P.isInterestingReg r then (r, idx) :: initializeMapRegToAddr (idx + P.regSize r) rs
      else initializeMapRegToAddr idx rs

/-- `map_reg_to_addr_` and `map_addr_to_reg_`, as the pairs they hold. -/
def mapRegToAddr : List (Reg × Nat) :=
  P.initializeMapRegToAddr 0 P.regs

/-- `regToRegAddr`; an unknown register is fatal. -/
def regToRegAddr (r : Reg) : Option Nat :=
  (P.mapRegToAddr.lookup (P.regFullRegName r)).map fun addr =>
    if P.regIsUpper8 r then addr + 1 else addr

/-- `regAddrToReg`; an address at which no register starts is fatal. -/
def regAddrToReg (addr : Nat) : Option Reg :=
  (P.mapRegToAddr.find? fun p => p.2 = addr).map Prod.fst

/-! ### The methods -/

/-- The addresses `addr`, …, `addr + size - 1`. -/
def regAddresses (addr size : Nat) : List Nat :=
  List.range' addr size

open RegExprs (cells)

variable (b : ExprBuilder) (s : RegExprs)

/-- `clearExprFromReg`. A size of -1 is `none`. -/
def clearExprFromReg (r : Reg) (off : Nat) (size : Option Nat) : Build RegExprs :=
  match P.regToRegAddr r with
  | none => .stop
  | some addr =>
      let size := size.getD (P.regSize r)
      let size := if P.regIsGr32 r ∧ off = 0 then P.regSize (P.regFullRegName r) else size
      match size with
      | 1 => cells.clearExpr s (addr + off)
      | size => cells.clearExprs s (regAddresses (addr + off) size)

/-- The upper half of the full register, which a 32-bit result clears: the loop of
`setExprToReg` from byte `i` on. -/
def clearUpperHalf (full : Reg) (s : RegExprs) (i : Nat) : Nat → Build RegExprs
  | 0 => .ret s
  | n + 1 => do
      let s' ← P.clearExprFromReg s full i (some 1)
      clearUpperHalf full s' (i + 1) n

/-- A 32-bit result is zero-extended to the full register. -/
def zeroExtend (r : Reg) : Build RegExprs :=
  if P.regIsGr32 r then P.clearUpperHalf (P.regFullRegName r) s 4 4 else .ret s

/-- `setExprToReg(r, e)` -/
def setExprToReg (r : Reg) (e : Option Expr) : Build RegExprs := do
  let s ← P.zeroExtend s r
  match P.regToRegAddr r with
  | none => .stop
  | some addr =>
      match P.regSize r with
      | 1 => cells.setExpr s addr e
      | 2 | 4 | 8 | 16 | 32 => cells.setExprs b s (regAddresses addr (P.regSize r)) e
      -- invalid size
      | _ => .stop

/-- `getExprFromRegAddr(ctx, addr, size)`; `ctx r i` is byte `i` of the register `r`. -/
def getExprFromRegAddr (ctx : Reg → Nat → BitVec 8) (addr size : Nat) :
    Build (Option Expr × RegExprs) :=
  if cells.isSymbolic s (regAddresses addr size) then
    match P.regAddrToReg addr with
    | none => .stop
    | some r => cells.getExprs b s (fun a => ctx r (a - addr)) (regAddresses addr size)
  else .ret (none, s)

/-- `getExprFromReg(ctx, r)` -/
def getExprFromReg (ctx : Reg → Nat → BitVec 8) (r : Reg) : Build (Option Expr × RegExprs) :=
  match P.regToRegAddr r with
  | none => .stop
  | some addr =>
      match P.regSize r with
      | 1 => .ret (s addr, s)
      | 2 | 4 | 8 | 16 | 32 => P.getExprFromRegAddr b s ctx addr (P.regSize r)
      -- unreachable
      | _ => .stop

/-! ### What Pin documents -/

/-- Views lie inside their full register, and the views with a rule of their own have
the sizes their names say. -/
structure Documented : Prop where
  full_full : ∀ r, P.regFullRegName (P.regFullRegName r) = P.regFullRegName r
  size_pos : ∀ r, 0 < P.regSize r
  size_le : ∀ r, P.regSize r ≤ P.regSize (P.regFullRegName r)
  upper8 : ∀ r, P.regIsUpper8 r = true → P.regSize r = 1 ∧ 2 ≤ P.regSize (P.regFullRegName r)
  not_upper8_full : ∀ r, P.regIsUpper8 (P.regFullRegName r) = false
  gr32 : ∀ r, P.regIsGr32 r = true → P.regSize r = 4 ∧ P.regSize (P.regFullRegName r) = 8

/-! ### The table places registers apart -/

section Table

variable {P} {f f' : Reg} {addr addr' idx : Nat}

theorem le_of_mem_initialize {rs : List Reg}
    (h : (f, addr) ∈ P.initializeMapRegToAddr idx rs) : idx ≤ addr := by
  induction rs generalizing idx with
  | nil => cases h
  | cons r rs ih =>
      rw [initializeMapRegToAddr] at h
      split at h
      · obtain h | h := List.mem_cons.1 h
        · cases h
          exact Nat.le_refl _
        · exact Nat.le_of_add_right_le (ih h)
      · exact ih h

/-- The table has only interesting registers. -/
theorem isInterestingReg_of_mem {rs : List Reg}
    (h : (f, addr) ∈ P.initializeMapRegToAddr idx rs) : P.isInterestingReg f = true := by
  induction rs generalizing idx with
  | nil => cases h
  | cons r rs ih =>
      rw [initializeMapRegToAddr] at h
      split at h
      next hr =>
          obtain h | h := List.mem_cons.1 h
          · cases h
            exact hr
          · exact ih h
      next => exact ih h

theorem initialize_pairwise (idx : Nat) (rs : List Reg) :
    (P.initializeMapRegToAddr idx rs).Pairwise fun p q => p.2 + P.regSize p.1 ≤ q.2 := by
  induction rs generalizing idx with
  | nil => exact .nil
  | cons r rs ih =>
      rw [initializeMapRegToAddr]
      split
      · exact .cons (fun q hq => le_of_mem_initialize hq) (ih _)
      · exact ih idx

/-- Bytes of registers at one address are one byte. -/
theorem mapRegToAddr_inj (h : (f, addr) ∈ P.mapRegToAddr) (h' : (f', addr') ∈ P.mapRegToAddr)
    {i i' : Nat} (hi : i < P.regSize f) (hi' : i' < P.regSize f') (he : addr + i = addr' + i') :
    f = f' ∧ i = i' := by
  let Apart (p q : Reg × Nat) : Prop :=
    p.2 + P.regSize p.1 ≤ q.2 ∨ q.2 + P.regSize q.1 ≤ p.2
  have hsymm : Std.Symm Apart := ⟨fun p q => Or.symm⟩
  have hpair : P.mapRegToAddr.Pairwise Apart := (initialize_pairwise 0 P.regs).imp Or.inl
  by_cases heq : (f, addr) = (f', addr')
  · cases heq
    exact ⟨rfl, by omega⟩
  · obtain hle | hle := hpair.forall h h' heq
    · simp only at hle
      omega
    · simp only at hle
      omega

theorem mem_of_lookup {l : List (Reg × Nat)} (h : l.lookup f = some addr) : (f, addr) ∈ l := by
  induction l with
  | nil => cases h
  | cons p l ih =>
      obtain ⟨r, a⟩ := p
      rw [List.lookup_cons] at h
      split at h
      next heq =>
          cases h
          rw [eq_of_beq heq]
          exact List.mem_cons_self
      next => exact List.mem_cons_of_mem _ (ih h)

/-- The register that starts at an address. -/
theorem regAddrToReg_of_lookup (hP : P.Documented) (h : P.mapRegToAddr.lookup f = some addr) :
    P.regAddrToReg addr = some f := by
  have hmem := mem_of_lookup h
  unfold regAddrToReg
  cases hfind : P.mapRegToAddr.find? fun p => p.2 = addr with
  | none => exact absurd (List.find?_eq_none.1 hfind _ hmem) (by simp)
  | some p =>
      have hp : p.2 = addr := by simpa using List.find?_some hfind
      have hinj := mapRegToAddr_inj (List.mem_of_find?_eq_some hfind) hmem
        (hP.size_pos p.1) (hP.size_pos f) (by rw [hp])
      rw [Option.map_some, hinj.1]

end Table

/-! ### The bytes of the registers -/

/-- A byte of a full register. -/
abbrev RegByte (Reg : Type) := Reg × Nat

/-- The bytes `i`, …, `i + n - 1` of the full register of `r`. -/
def bytesOf (r : Reg) (i n : Nat) : List (RegByte Reg) :=
  (List.range' i n).map fun j => (P.regFullRegName r, j)

/-- The bytes of a view; an `AH` is byte 1. -/
def viewBytes (r : Reg) : List (RegByte Reg) :=
  P.bytesOf r (if P.regIsUpper8 r then 1 else 0) (P.regSize r)

/-- What a write of `N` to the view `r` leaves: its bytes are new, a 32-bit register
loses the upper half of the full one, and all other bytes stay. -/
def written (r : Reg) (N : Input → Nat) (m : Bytes.Map (RegByte Reg) Input) :
    Bytes.Map (RegByte Reg) Input :=
  Bytes.Map.store N 0 (P.viewBytes r)
    (if P.regIsGr32 r then m.erase (P.bytesOf r 4 4) else m)

/-- What clearing the view `r` leaves. -/
def cleared (r : Reg) (m : Bytes.Map (RegByte Reg) Input) : Bytes.Map (RegByte Reg) Input :=
  m.erase (if P.regIsGr32 r then P.bytesOf r 0 (P.regSize (P.regFullRegName r)) else P.viewBytes r)

/-- The expression of a byte. -/
def peekByte (s : RegExprs) (k : RegByte Reg) : Option Expr :=
  match P.mapRegToAddr.lookup k.1 with
  | some addr => s (addr + k.2)
  | none => none

/-- The map `μ` of the cells has the bytes of `m`. -/
def Placed (μ : Bytes.Map Nat Input) (m : Bytes.Map (RegByte Reg) Input) : Prop :=
  ∀ f addr, P.mapRegToAddr.lookup f = some addr → ∀ i, i < P.regSize f → μ (addr + i) = m (f, i)

/-- The cells stand for the bytes of `m`. -/
def ShadowsRegs (s : RegExprs) (m : Bytes.Map (RegByte Reg) Input) : Prop :=
  ∃ μ, Shadows cells s μ ∧ P.Placed μ m

omit [DecidableEq Reg] in
theorem Documented.not_upper8_of_gr32 {P : Pin Reg} (hP : P.Documented) {r : Reg}
    (h : P.regIsGr32 r = true) : P.regIsUpper8 r = false := by
  by_contra hup
  have h1 := (hP.upper8 r (by simpa using hup)).1
  have h4 := (hP.gr32 r h).1
  omega

section Placed

variable {P} {f : Reg} {addr i n : Nat} {μ : Bytes.Map Nat Input}
  {m : Bytes.Map (RegByte Reg) Input}

theorem Placed.update (h : P.Placed μ m) (hf : P.mapRegToAddr.lookup f = some addr)
    (hi : i < P.regSize f) (x : Option (Input → Nat)) :
    P.Placed (Function.update μ (addr + i) x) (Function.update m (f, i) x) := by
  intro f' addr' hf' i' hi'
  by_cases heq : addr' + i' = addr + i
  · obtain ⟨rfl, rfl⟩ := mapRegToAddr_inj (mem_of_lookup hf') (mem_of_lookup hf) hi' hi heq
    rw [heq, Function.update_self, Function.update_self]
  · rw [Function.update_of_ne heq, Function.update_of_ne ?_]
    · exact h f' addr' hf' i' hi'
    · rintro ⟨⟩
      rw [hf'] at hf
      exact heq (by rw [Option.some.inj hf])

theorem Placed.store (h : P.Placed μ m) (hf : P.mapRegToAddr.lookup f = some addr)
    (hn : i + n ≤ P.regSize f) (N : Input → Nat) (j : Nat) :
    P.Placed (μ.store N j (regAddresses (addr + i) n))
      (m.store N j ((List.range' i n).map (f, ·))) := by
  induction n generalizing i j μ m with
  | zero => exact h
  | succ n ih =>
      rw [regAddresses, List.range'_succ, List.range'_succ]
      exact ih (i := i + 1) (h.update hf (i := i) (by omega) _) (by omega) (j + 1)

theorem Placed.erase (h : P.Placed μ m) (hf : P.mapRegToAddr.lookup f = some addr)
    (hn : i + n ≤ P.regSize f) :
    P.Placed (μ.erase (regAddresses (addr + i) n)) (m.erase ((List.range' i n).map (f, ·))) := by
  induction n generalizing i μ m with
  | zero => exact h
  | succ n ih =>
      rw [regAddresses, List.range'_succ, List.range'_succ]
      exact ih (i := i + 1) (h.update hf (i := i) (by omega) _) (by omega)

end Placed

/-! ### Every method does to the cells what it does to the bytes -/

section Methods

variable {P} {σ : Session} {ok : MethodCall → Prop} {s : RegExprs} {r f : Reg} {addr : Nat}
variable {m : Bytes.Map (RegByte Reg) Input}

/-- The address of a view is that of its first byte. -/
theorem regToRegAddr_eq_some (h : P.regToRegAddr r = some addr) :
    ∃ base, P.mapRegToAddr.lookup (P.regFullRegName r) = some base ∧
      addr = base + if P.regIsUpper8 r then 1 else 0 := by
  obtain ⟨base, hbase, rfl⟩ := Option.map_eq_some_iff.1 h
  refine ⟨base, hbase, ?_⟩
  split <;> rfl

omit [DecidableEq Reg] in
/-- The bytes of a view lie in its full register. -/
theorem Documented.view_le (hP : P.Documented) (r : Reg) :
    (if P.regIsUpper8 r then 1 else 0) + P.regSize r ≤ P.regSize (P.regFullRegName r) := by
  split
  next h =>
      obtain ⟨h1, h2⟩ := hP.upper8 r h
      omega
  next => simpa using hP.size_le r

theorem clearExprs_regs (h : P.ShadowsRegs s m) {i n : Nat}
    (hf : P.mapRegToAddr.lookup f = some addr) (hn : i + n ≤ P.regSize f) :
    Yields (body σ) ok (cells.clearExprs s (regAddresses (addr + i) n))
      (fun s' => P.ShadowsRegs s' (m.erase ((List.range' i n).map (f, ·)))) := by
  obtain ⟨μ, hμ, hm⟩ := h
  exact (Yields.of_total (cells.clearExprs_builds s _)).mono fun s' hs' =>
    ⟨_, hμ.erase hs', hm.erase hf hn⟩

theorem clearExpr_regs (h : P.ShadowsRegs s m) {i : Nat}
    (hf : P.mapRegToAddr.lookup f = some addr) (hi : i < P.regSize f) :
    Yields (body σ) ok (cells.clearExpr s (addr + i))
      (fun s' => P.ShadowsRegs s' (m.erase [(f, i)])) := by
  obtain ⟨μ, hμ, hm⟩ := h
  exact (Yields.of_total (cells.clearExpr_builds s _)).mono fun s' hs' =>
    ⟨_, hμ.erase hs', hm.update hf hi none⟩

/-- One cell or several make no difference. -/
theorem clearSized_regs (h : P.ShadowsRegs s m) {i n : Nat}
    (hf : P.mapRegToAddr.lookup f = some addr) (hn : i + n ≤ P.regSize f) :
    Yields (body σ) ok
      (match n with
        | 1 => cells.clearExpr s (addr + i)
        | size => cells.clearExprs s (regAddresses (addr + i) size))
      (fun s' => P.ShadowsRegs s' (m.erase ((List.range' i n).map (f, ·)))) := by
  split
  · exact clearExpr_regs h hf (by omega)
  · exact clearExprs_regs h hf hn

theorem clearUpperHalf_regs (hP : P.Documented) (h : P.ShadowsRegs s m) {i n : Nat} (hi : i ≠ 0)
    (hn : i + n ≤ P.regSize (P.regFullRegName r)) :
    Yields (body σ) ok (P.clearUpperHalf (P.regFullRegName r) s i n)
      (fun s' => P.ShadowsRegs s' (m.erase (P.bytesOf r i n))) := by
  induction n generalizing s i m with
  | zero => exact .ret h
  | succ n ih =>
      refine Yields.bind (P := fun s' => P.ShadowsRegs s' (m.erase [(P.regFullRegName r, i)])) ?_
        fun s' hs' => ih (i := i + 1) hs' (by omega) (by omega)
      unfold clearExprFromReg
      split
      next => exact .stop
      next addr haddr =>
          obtain ⟨base, hbase, rfl⟩ := regToRegAddr_eq_some haddr
          rw [hP.full_full] at hbase
          simp only [hi, and_false, if_false, Option.getD_some, hP.not_upper8_full,
            Bool.false_eq_true,
            Nat.add_zero]
          exact clearExpr_regs h hbase (by omega)

theorem clearExprFromReg_regs (hP : P.Documented) (h : P.ShadowsRegs s m) (r : Reg) :
    Yields (body σ) ok (P.clearExprFromReg s r 0 none)
      (fun s' => P.ShadowsRegs s' (P.cleared r m)) := by
  unfold clearExprFromReg
  split
  next => exact .stop
  next addr haddr =>
      obtain ⟨base, hbase, rfl⟩ := regToRegAddr_eq_some haddr
      have hview := hP.view_le r
      unfold cleared viewBytes bytesOf
      by_cases h32 : P.regIsGr32 r = true
      · have hup := hP.not_upper8_of_gr32 h32
        simp only [h32, hup, if_true, and_true, Bool.false_eq_true, if_false, Nat.add_zero]
        exact clearSized_regs h (i := 0) hbase (by omega)
      · simp only [h32, false_and, if_false, Option.getD_none, Nat.add_zero, Bool.false_eq_true]
        exact clearSized_regs h hbase hview

/-- A byte stored as it is. -/
theorem setExpr_regs {e : Expr} (he : e.IsBV 8) (ht : e.Trimmed) (h : P.ShadowsRegs s m) {i : Nat}
    (hf : P.mapRegToAddr.lookup f = some addr) (hi : i < P.regSize f) :
    Yields (body σ) ok (cells.setExpr s (addr + i) (some e))
      (fun s' => P.ShadowsRegs s' (m.store e.value 0 [(f, i)])) := by
  obtain ⟨μ, hμ, hm⟩ := h
  have hx : Composed 1 (fun ρ => Bytes.byte (e.value ρ) 0) e := by
    refine ⟨ht, he, fun ρ => ?_⟩
    rw [Bytes.byte, Nat.zero_mul, pow_zero, Nat.div_one, Nat.mod_eq_of_lt (he.value_lt ρ)]
  exact (cells.setExpr_yields s _ e).mono fun s' hs' => ⟨_, hμ.update hx hs', hm.update hf hi _⟩

theorem setExprs_regs {e : Expr} {n i : Nat} (he : e.IsBV (n * 8)) (ht : e.Trimmed)
    (h : P.ShadowsRegs s m) (hf : P.mapRegToAddr.lookup f = some addr)
    (hn : i + n ≤ P.regSize f) :
    Yields (body σ) (FoldsExactly fun _ => True)
      (cells.setExprs SymbolicExprBuilder.chain s (regAddresses (addr + i) n) (some e))
      (fun s' => P.ShadowsRegs s' (m.store e.value 0 ((List.range' i n).map (f, ·)))) := by
  obtain ⟨μ, hμ, hm⟩ := h
  have hlen : (0 + (regAddresses (addr + i) n).length) * 8 ≤ n * 8 := by
    rw [regAddresses, List.length_range', Nat.zero_add]
  exact (cells.setBytes_yields he ht hlen hμ).mono fun s' hs' => ⟨_, hs', hm.store hf hn _ 0⟩

theorem setExprToReg_regs (hP : P.Documented) {e : Expr} (he : e.IsBV (P.regSize r * 8))
    (ht : e.Trimmed) (h : P.ShadowsRegs s m) :
    Yields (body σ) (FoldsExactly fun _ => True)
      (P.setExprToReg SymbolicExprBuilder.chain s r (some e))
      (fun s' => P.ShadowsRegs s' (P.written r e.value m)) := by
  have hview := hP.view_le r
  have hupper : Yields (body σ) (FoldsExactly fun _ => True) (P.zeroExtend s r)
      (fun s' => P.ShadowsRegs s' (if P.regIsGr32 r then m.erase (P.bytesOf r 4 4) else m)) := by
    unfold zeroExtend
    split
    next h32 => exact clearUpperHalf_regs hP h (by omega) (hP.gr32 r h32).2.ge
    next => exact .ret h
  refine hupper.bind fun s₁ h₁ => ?_
  unfold written
  generalize (if P.regIsGr32 r then m.erase (P.bytesOf r 4 4) else m) = m₁ at h₁
  split
  next => exact .stop
  next addr haddr =>
      obtain ⟨base, hbase, rfl⟩ := regToRegAddr_eq_some haddr
      unfold viewBytes bytesOf
      split
      next h1 =>
          rw [h1] at he hview ⊢
          exact setExpr_regs he ht h₁ hbase hview
      next => exact setExprs_regs he ht h₁ hbase hview
      next => exact setExprs_regs he ht h₁ hbase hview
      next => exact setExprs_regs he ht h₁ hbase hview
      next => exact setExprs_regs he ht h₁ hbase hview
      next => exact setExprs_regs he ht h₁ hbase hview
      next => exact .stop

end Methods

/-! ### Which cells the methods touch -/

section Cells

variable {P} {σ : Session} {ok : MethodCall → Prop} {s : RegExprs} {r : Reg} {base off i n : Nat}

theorem clearExprFromReg_cells {size : Option Nat}
    (hsize : (if P.regIsGr32 r ∧ off = 0 then P.regSize (P.regFullRegName r)
      else size.getD (P.regSize r)) = n) :
    Yields (body σ) ok (P.clearExprFromReg s r off size) (fun s' => ∃ base,
      P.mapRegToAddr.lookup (P.regFullRegName r) = some base ∧
        cells.Cleared s (regAddresses (base + ((if P.regIsUpper8 r then 1 else 0) + off)) n)
          s') := by
  unfold clearExprFromReg
  split
  next => exact .stop
  next addr haddr =>
      obtain ⟨base, hbase, rfl⟩ := regToRegAddr_eq_some haddr
      simp only [hsize, ← Nat.add_assoc]
      split
      next =>
          exact (Yields.of_total (cells.clearExpr_builds _ _)).mono fun s' hs' => ⟨base, hbase, hs'⟩
      next =>
          exact (Yields.of_total (cells.clearExprs_builds _ _)).mono fun s' hs' =>
            ⟨base, hbase, hs'⟩

theorem clearUpperHalf_cells (hP : P.Documented)
    (hf : P.mapRegToAddr.lookup (P.regFullRegName r) = some base) (hi : i ≠ 0) :
    Yields (body σ) ok (P.clearUpperHalf (P.regFullRegName r) s i n)
      (cells.Cleared s (regAddresses (base + i) n)) := by
  induction n generalizing s i with
  | zero => exact .ret fun a => ⟨nofun, fun _ => rfl⟩
  | succ n ih =>
      have hone : Yields (body σ) ok (P.clearExprFromReg s (P.regFullRegName r) i (some 1)) _ :=
        clearExprFromReg_cells (n := 1) (by simp only [hi, and_false, if_false, Option.getD_some])
      refine hone.bind fun s₁ ⟨base', hbase', h₁⟩ => ?_
      rw [hP.full_full, hf] at hbase'
      obtain rfl := Option.some.inj hbase'
      simp only [hP.not_upper8_full, Bool.false_eq_true, if_false, Nat.zero_add] at h₁
      refine (ih (i := i + 1) (by omega)).mono fun s₂ h₂ a => ?_
      have hmem : a ∈ regAddresses (base + i) (n + 1) ↔
          a ∈ regAddresses (base + i) 1 ∨ a ∈ regAddresses (base + (i + 1)) n := by
        simp only [regAddresses, List.mem_range'_1]
        omega
      rw [hmem]
      by_cases ha : a ∈ regAddresses (base + (i + 1)) n
      · exact ⟨fun _ => (h₂ a).1 ha, fun h => absurd (.inr ha) h⟩
      · exact ⟨fun h => ((h₂ a).2 ha).trans ((h₁ a).1 (h.resolve_right ha)),
          fun h => ((h₂ a).2 ha).trans ((h₁ a).2 fun h' => h (.inl h'))⟩

/-- The cells that are written with a register whose full register is at `base`. -/
def writtenCells (P : Pin Reg) (r : Reg) (base : Nat) : List Nat :=
  (if P.regIsGr32 r then regAddresses (base + 4) 4 else []) ++
    regAddresses (base + if P.regIsUpper8 r then 1 else 0) (P.regSize r)

theorem zeroExtend_cells (hP : P.Documented)
    (hf : P.mapRegToAddr.lookup (P.regFullRegName r) = some base) :
    Yields (body σ) ok (P.zeroExtend s r)
      (cells.Cleared s (if P.regIsGr32 r then regAddresses (base + 4) 4 else [])) := by
  unfold zeroExtend
  split
  next => exact clearUpperHalf_cells hP hf (by omega)
  next => exact .ret fun a => ⟨nofun, fun _ => rfl⟩

theorem setExprToReg_cells (hP : P.Documented) (b : ExprBuilder) (s : RegExprs) (r : Reg)
    (x : Option Expr) : Yields (body σ) ok (P.setExprToReg b s r x) (fun s' => ∃ base,
      P.mapRegToAddr.lookup (P.regFullRegName r) = some base ∧
        cells.Written s (P.writtenCells r base) x s') := by
  unfold setExprToReg
  cases haddr : P.regToRegAddr r with
  | none =>
      refine Yields.bind (P := fun _ => True) (fun _ _ _ _ _ => trivial) fun _ _ => ?_
      exact .stop
  | some addr =>
      obtain ⟨base, hbase, rfl⟩ := regToRegAddr_eq_some haddr
      refine (zeroExtend_cells hP hbase).bind fun s₁ h₁ => ?_
      have hbytes : Yields (body σ) ok (cells.setExprs b s₁
          (regAddresses (base + if P.regIsUpper8 r then 1 else 0) (P.regSize r)) x)
            (fun s' => ∃ base,
            P.mapRegToAddr.lookup (P.regFullRegName r) = some base ∧
              cells.Written s (P.writtenCells r base) x s') :=
        (cells.setExprs_state b s₁ _ x).mono fun s' h₂ => ⟨base, hbase, h₁.written h₂⟩
      simp only
      split
      next h1 =>
          refine (cells.setExpr_written s₁ _ x).mono fun s' h₂ => ⟨base, hbase, ?_⟩
          rw [writtenCells, h1]
          exact h₁.written h₂
      next => exact hbytes
      next => exact hbytes
      next => exact hbytes
      next => exact hbytes
      next => exact hbytes
      next => exact .stop

/-- What is stored in a register are its lowest bytes, under a cleared upper half. -/
theorem setExprToReg_lowBytes (hP : P.Documented) {e : Expr} {n : Nat} (he : e.IsBV n)
    (hn : P.regSize r * 8 ≤ n) (h1 : P.regSize r = 1 → n = 8) (ht : e.Trimmed) :
    Yields (body σ) (FoldsExactly fun _ => True)
      (P.setExprToReg SymbolicExprBuilder.chain s r (some e)) (fun s' => ∃ base,
        P.mapRegToAddr.lookup (P.regFullRegName r) = some base ∧
          (∀ a ∈ if P.regIsGr32 r then regAddresses (base + 4) 4 else [], s' a = none) ∧
          ∀ i < P.regSize r, ∃ x, s' (base + ((if P.regIsUpper8 r then 1 else 0) + i)) = some x ∧
            ∀ ρ, x.value ρ = Bytes.byte (e.value ρ) i) := by
  unfold setExprToReg
  cases haddr : P.regToRegAddr r with
  | none =>
      refine Yields.bind (P := fun _ => True) (fun _ _ _ _ _ => trivial) fun _ _ => ?_
      exact .stop
  | some addr =>
      obtain ⟨base, hbase, rfl⟩ := regToRegAddr_eq_some haddr
      refine (zeroExtend_cells hP hbase).bind fun s₁ h₁ => ?_
      have hupper (s' : RegExprs)
          (h : ∀ a, a ∉ regAddresses (base + if P.regIsUpper8 r then 1 else 0)
          (P.regSize r) → cells.peek s' a = cells.peek s₁ a) (a : Nat)
          (ha : a ∈ if P.regIsGr32 r then regAddresses (base + 4) 4 else []) : s' a = none := by
        refine (h a fun ha' => ?_).trans ((h₁ a).1 ha)
        split at ha
        next h32 =>
            have hup := hP.not_upper8_of_gr32 h32
            have h4 := (hP.gr32 r h32).1
            rw [regAddresses, List.mem_range'_1] at ha ha'
            simp only [hup, Bool.false_eq_true, if_false] at ha'
            omega
        next => cases ha
      -- the bytes of `e` one by one, whatever the size
      have hbytes : Yields (body σ) (FoldsExactly fun _ => True)
          (cells.setExprs SymbolicExprBuilder.chain s₁
          (regAddresses (base + if P.regIsUpper8 r then 1 else 0) (P.regSize r)) (some e))
            (fun s' => ∃ base,
            P.mapRegToAddr.lookup (P.regFullRegName r) = some base ∧
              (∀ a ∈ if P.regIsGr32 r then regAddresses (base + 4) 4 else [], s' a = none) ∧
              ∀ i < P.regSize r, ∃ x,
                s' (base + ((if P.regIsUpper8 r then 1 else 0) + i)) = some x ∧
                ∀ ρ, x.value ρ = Bytes.byte (e.value ρ) i) := by
        have hle : (0 + (regAddresses (base + if P.regIsUpper8 r then 1 else 0)
            (P.regSize r)).length) * 8 ≤ n := by
          simpa [regAddresses] using hn
        refine (cells.setBytes_bytes he ht hle List.nodup_range').mono fun s' ⟨hout, hset⟩ =>
          ⟨base, hbase, hupper s' hout, fun i hi => ?_⟩
        obtain ⟨x, hx, hval⟩ := hset i (base + ((if P.regIsUpper8 r then 1 else 0) + i)) (by
          simp only [regAddresses, List.getElem?_range' hi, Nat.one_mul, Nat.add_assoc])
        rw [Nat.zero_add] at hval
        exact ⟨x, hx, hval.value⟩
      simp only
      split
      next hone =>
          refine (cells.setExpr_yields s₁ _ e).mono fun s' ⟨hset, hsame⟩ =>
            ⟨base, hbase, hupper s' fun a ha => hsame a ?_, fun i hi => ⟨e, ?_, fun ρ => ?_⟩⟩
          · rintro rfl
            simp [regAddresses, hone] at ha
          · obtain rfl : i = 0 := by omega
            exact hset
          · obtain rfl : i = 0 := by omega
            have hlt := he.value_lt ρ
            rw [h1 hone] at hlt
            rw [Bytes.byte, Nat.zero_mul, pow_zero, Nat.div_one, Nat.mod_eq_of_lt hlt]
      next => exact hbytes
      next => exact hbytes
      next => exact hbytes
      next => exact hbytes
      next => exact hbytes
      next => exact .stop

/-- Storing leaves a byte in every cell. Something wider than the register is cut off. -/
theorem setExprToReg_low_holdBytes (hP : P.Documented) {e : Expr} {n : Nat} (he : e.IsBV n)
    (hn : P.regSize r * 8 ≤ n) (h1 : P.regSize r = 1 → n = 8) (ht : e.Trimmed)
    (h : cells.HoldBytes s) :
    Yields (body σ) (FoldsExactly fun _ => True)
      (P.setExprToReg SymbolicExprBuilder.chain s r (some e)) cells.HoldBytes := by
  unfold setExprToReg
  cases haddr : P.regToRegAddr r with
  | none =>
      refine Yields.bind (P := fun _ => True) (fun _ _ _ _ _ => trivial) fun _ _ => ?_
      exact .stop
  | some addr =>
      obtain ⟨base, hbase, rfl⟩ := regToRegAddr_eq_some haddr
      refine (zeroExtend_cells hP hbase).bind fun s₁ hcleared => ?_
      have h₁ : cells.HoldBytes s₁ := h.cleared hcleared
      have hbytes : Yields (body σ) (FoldsExactly fun _ => True)
          (cells.setExprs SymbolicExprBuilder.chain s₁
          (regAddresses (base + if P.regIsUpper8 r then 1 else 0) (P.regSize r)) (some e))
            cells.HoldBytes := by
        refine h₁.setBytes he ht ?_
        simpa [regAddresses] using hn
      simp only
      split
      next hone =>
          rw [h1 hone] at he
          exact h₁.setExpr ht he
      next => exact hbytes
      next => exact hbytes
      next => exact hbytes
      next => exact hbytes
      next => exact hbytes
      next => exact .stop

theorem setExprToReg_holdBytes (hP : P.Documented) {e : Expr} (he : e.IsBV (P.regSize r * 8))
    (ht : e.Trimmed) (h : cells.HoldBytes s) : Yields (body σ) (FoldsExactly fun _ => True)
      (P.setExprToReg SymbolicExprBuilder.chain s r (some e)) cells.HoldBytes :=
  setExprToReg_low_holdBytes hP he (Nat.le_refl _) (fun h1 => by rw [h1]) ht h

end Cells

/-! ### Runs -/

/-- The shadow registers that sequences of calls lead to, each with what was last
written to every byte. The calls that take an expression apart only come to calls
in `ok`. -/
inductive Reached (σ : Session) (ok : MethodCall → Prop) :
    RegExprs → World → Bytes.Map (RegByte Reg) Input → Prop
  /-- The array is empty at first. -/
  | start (w : World) : Reached σ ok (fun _ => none) w fun _ => none
  | set {s s' : RegExprs} {w w' : World} {m : Bytes.Map (RegByte Reg) Input} {r : Reg} {e : Expr}
      (h : Reached σ ok s w m) (he : e.IsBV (P.regSize r * 8)) (ht : e.Trimmed)
      (hsafe : Safe (body σ) ok (P.setExprToReg SymbolicExprBuilder.chain s r (some e)) w)
      (hr : Runs (body σ) (P.setExprToReg SymbolicExprBuilder.chain s r (some e)) w s' w') :
      Reached σ ok s' w' (P.written r e.value m)
  | clear {s s' : RegExprs} {w w' : World} {m : Bytes.Map (RegByte Reg) Input} {r : Reg}
      (h : Reached σ ok s w m)
      (hr : Runs (body σ) (P.clearExprFromReg s r 0 none) w s' w') :
      Reached σ ok s' w' (P.cleared r m)
  | get {s s' : RegExprs} {w w' : World} {m : Bytes.Map (RegByte Reg) Input} {r : Reg}
      {ctx : Reg → Nat → BitVec 8} {x : Option Expr} (h : Reached σ ok s w m)
      (hm : Consistent σ m (fun k => ctx k.1 k.2) (P.viewBytes r))
      (hr : Runs (body σ) (P.getExprFromReg SymbolicExprBuilder.chain s ctx r) w (x, s') w') :
      Reached σ ok s' w' m

/-- Where a byte of a view holds no expression, the register holds what was written there. -/
def ConsistentView (σ : Session) (s : RegExprs) (m : Bytes.Map (RegByte Reg) Input)
    (ctx : Reg → Nat → BitVec 8) (r : Reg) : Prop :=
  ∀ k ∈ P.viewBytes r, P.peekByte s k = none → ∀ f, m k = some f → f σ.input = (ctx k.1 k.2).toNat

/-- What `getExprFromReg` answers for a view: nothing if none of its bytes holds an
expression that depends on the input, and otherwise the number of the bytes last written
and of those the register holds. -/
structure ReadsView (s : RegExprs) (m : Bytes.Map (RegByte Reg) Input) (ctx : Reg → Nat → BitVec 8)
    (r : Reg) (x : Option Expr) : Prop where
  none_iff : x = none ↔ ∀ k ∈ P.viewBytes r, ∀ e, P.peekByte s k = some e → e.getDeps = ∅
  isBV : ∀ e, x = some e → e.IsBV (P.regSize r * 8)
  value : ∀ e, x = some e →
    ∀ ρ, e.value ρ = m.read (fun k => (ctx k.1 k.2).toNat) (P.viewBytes r) ρ

section Reads

variable {P} {σ : Session} {ok : MethodCall → Prop} {s : RegExprs} {r : Reg} {addr : Nat}
variable {m : Bytes.Map (RegByte Reg) Input} {ctx : Reg → Nat → BitVec 8}

/-- Where a view of several bytes lies. -/
theorem Documented.view_of_size (hP : P.Documented) (hsize : P.regSize r ≠ 1)
    (haddr : P.regToRegAddr r = some addr) :
    P.mapRegToAddr.lookup (P.regFullRegName r) = some addr ∧
      P.viewBytes r = (List.range' 0 (P.regSize r)).map fun i => (P.regFullRegName r, i) := by
  obtain ⟨base, hbase, rfl⟩ := regToRegAddr_eq_some haddr
  have hup : P.regIsUpper8 r = false := by
    by_contra hup
    exact hsize (hP.upper8 r (by simpa using hup)).1
  simp only [hup, viewBytes, bytesOf, Bool.false_eq_true, if_false, Nat.add_zero, and_true]
  exact hbase

theorem regAddresses_eq (addr n : Nat) : regAddresses addr n =
    (List.range' 0 n).map (addr + ·) := by
  rw [List.map_add_range', Nat.add_zero]
  rfl

theorem getExprFromRegAddr_builds (hP : P.Documented) (h : P.ShadowsRegs s m)
    (hm : P.ConsistentView σ s m ctx r) (hsize : P.regSize r ≠ 1)
    (haddr : P.regToRegAddr r = some addr) :
    Builds σ ok (P.getExprFromRegAddr SymbolicExprBuilder.chain s ctx addr (P.regSize r))
      (fun x => P.ReadsView s m ctx r x.1 ∧ P.ShadowsRegs x.2 m) := by
  obtain ⟨μ, hμ, hplaced⟩ := h
  obtain ⟨hbase, hview⟩ := hP.view_of_size hsize haddr
  have hcell (i : Nat) (hi : i < P.regSize r) : μ (addr + i) = m (P.regFullRegName r, i) :=
    hplaced _ _ hbase i (Nat.lt_of_lt_of_le hi (hP.size_le r))
  have hcons : ConsistentAt σ cells s μ (fun a => ctx (P.regFullRegName r) (a - addr))
      (regAddresses addr (P.regSize r)) := by
    rw [ConsistentView, hview] at hm
    rw [regAddresses_eq]
    intro a ha hnone g hg
    obtain ⟨i, hi, rfl⟩ := List.mem_map.1 ha
    rw [hcell i (by simpa using hi)] at hg
    have hpeek : P.peekByte s (P.regFullRegName r, i) = none := by
      simp only [peekByte, hbase]
      exact hnone
    simpa only [Nat.add_sub_cancel_left] using hm _ (List.mem_map_of_mem hi) hpeek g hg
  have hpeek : (∀ a ∈ regAddresses addr (P.regSize r), ∀ e, cells.peek s a = some e →
      e.getDeps = ∅) ↔ ∀ k ∈ P.viewBytes r, ∀ e, P.peekByte s k = some e → e.getDeps = ∅ := by
    rw [hview, regAddresses_eq, List.forall_mem_map, List.forall_mem_map]
    simp only [peekByte, hbase]
    rfl
  have hread : Builds σ ok _ _ := cells.getExprs_builds hμ hcons
  have hval (ρ : Input) : μ.read (fun a => (ctx (P.regFullRegName r) (a - addr)).toNat)
      (regAddresses addr (P.regSize r)) ρ =
        m.read (fun k => (ctx k.1 k.2).toNat) (P.viewBytes r) ρ := by
    rw [Bytes.Map.read, Bytes.Map.read, hview, regAddresses_eq, List.map_map, List.map_map]
    refine congrArg _ (List.map_congr_left fun i hi => ?_)
    simp only [Function.comp, Bytes.Map.byteAt, hcell i (by simpa using hi),
      Nat.add_sub_cancel_left]
  have hanswer : Builds σ ok
      (cells.getExprs SymbolicExprBuilder.chain s (fun a => ctx (P.regFullRegName r) (a - addr))
        (regAddresses addr (P.regSize r)))
      (fun x => P.ReadsView s m ctx r x.1 ∧ P.ShadowsRegs x.2 m) := by
    refine hread.mono fun x hx => ⟨⟨hx.none_iff.trans hpeek, fun e he => ?_, fun e he ρ => ?_⟩,
      μ, hx.shadows, hplaced⟩
    · have hb := (hx.composed e he).isBV
      rwa [regAddresses, List.length_range'] at hb
    · exact ((hx.composed e he).value ρ).trans (hval ρ)
  unfold getExprFromRegAddr
  split
  next =>
      rw [regAddrToReg_of_lookup hP hbase]
      exact hanswer
  next hsym =>
      unfold Cells.getExprs at hanswer
      rwa [if_neg hsym] at hanswer

/-- A read leaves the bytes as they are. -/
theorem getExprFromReg_regs (hP : P.Documented) (h : P.ShadowsRegs s m)
    (hm : P.ConsistentView σ s m ctx r) :
    Yields (body σ) ok (P.getExprFromReg SymbolicExprBuilder.chain s ctx r)
      (fun x => P.ShadowsRegs x.2 m) := by
  unfold getExprFromReg
  split
  next => exact .stop
  next addr haddr =>
      have hread (hsize : P.regSize r ≠ 1) : Yields (body σ) ok
          (P.getExprFromRegAddr SymbolicExprBuilder.chain s ctx addr (P.regSize r))
          (fun x => P.ShadowsRegs x.2 m) :=
        (Yields.of_total (getExprFromRegAddr_builds hP h hm hsize haddr)).mono fun x hx => hx.2
      split
      next => exact .ret h
      next h2 => exact hread (by omega)
      next h4 => exact hread (by omega)
      next h8 => exact hread (by omega)
      next h16 => exact hread (by omega)
      next h32 => exact hread (by omega)
      next => exact .stop

theorem Reached.shadows (hP : P.Documented) {w : World}
    (h : Reached P σ (FoldsExactly fun _ => True) s w m) : P.ShadowsRegs s m := by
  induction h with
  | start w => exact ⟨fun _ => none, fun _ => nofun, fun _ _ _ _ _ => rfl⟩
  | set _ he ht hsafe hr ih => exact setExprToReg_regs hP he ht ih _ _ _ hsafe hr
  | clear _ hr ih => exact (clearExprFromReg_regs hP ih _).result hr
  | get _ hm hr ih => exact (getExprFromReg_regs hP ih fun k hk _ => hm k hk).result hr

/-- **Shadow registers respect sub-register aliasing**, as long as the writes fold their
divisions exactly. -/
theorem getExprFromReg_aliasing (hP : P.Documented) {w : World}
    (h : Reached P σ (FoldsExactly fun _ => True) s w m)
    (hm : Consistent σ m (fun k => ctx k.1 k.2) (P.viewBytes r))
    (hsize : P.regSize r ∈ [2, 4, 8, 16, 32]) (haddr : P.regToRegAddr r = some addr) :
    ∃ x s' w', Runs (body σ) (P.getExprFromReg SymbolicExprBuilder.chain s ctx r) w (x, s') w' ∧
      P.ReadsView s m ctx r x := by
  have h1 : P.regSize r ≠ 1 := fun h1 => by simp [h1] at hsize
  have hread : Builds σ anyCall _ _ := getExprFromRegAddr_builds hP (h.shadows hP)
    (fun k hk _ => hm k hk) h1 haddr
  obtain ⟨⟨x, s'⟩, w', hr, -, hx, -⟩ := hread w trivial fun _ _ => trivial
  refine ⟨x, s', w', ?_, hx⟩
  have heq : P.getExprFromReg SymbolicExprBuilder.chain s ctx r =
      P.getExprFromRegAddr SymbolicExprBuilder.chain s ctx addr (P.regSize r) := by
    unfold getExprFromReg
    rw [haddr]
    simp only [List.mem_cons, List.not_mem_nil, or_false] at hsize
    obtain h | h | h | h | h := hsize <;> simp only [h]
  rwa [heq]

/-! ### Registers whose cells hold bytes -/

/-- The bytes that the registers hold. -/
def own (P : Pin Reg) (s : RegExprs) : Bytes.Map (RegByte Reg) Input :=
  fun k => (P.peekByte s k).map fun e ρ => e.value ρ

theorem shadowsRegs_own (h : cells.HoldBytes s) : P.ShadowsRegs s (P.own s) := by
  refine ⟨cells.own s, h.shadows, fun f addr hf i _ => ?_⟩
  simp only [own, peekByte, hf]
  rfl

theorem own_consistentView (P : Pin Reg) (s : RegExprs) (ctx : Reg → Nat → BitVec 8) (r : Reg) :
    P.ConsistentView σ s (P.own s) ctx r := by
  intro k _ hnone f hf
  simp [own, hnone] at hf

/-- A read that answers nothing has cleared the cells; otherwise nothing has changed. -/
theorem getExprFromRegAddr_state (b : ExprBuilder) (s : RegExprs) (ctx : Reg → Nat → BitVec 8)
    (addr size : Nat) :
    Yields (body σ) ok (P.getExprFromRegAddr b s ctx addr size) (fun x =>
      (x.1 = none → cells.Cleared s (regAddresses addr size) x.2) ∧ (x.1 ≠ none → x.2 = s)) := by
  unfold getExprFromRegAddr
  split
  next =>
      split
      next => exact .stop
      next => exact cells.getExprs_state b s _ _
  next hsym =>
      refine .ret ⟨fun _ a => ⟨fun ha => ?_, fun _ => rfl⟩, fun h => absurd rfl h⟩
      simp only [Cells.isSymbolic, List.any_eq_true, not_exists, not_and] at hsym
      exact Option.not_isSome_iff_eq_none.1 (hsym a ha)

/-- A view of several bytes, read from cells that hold bytes. -/
theorem getExprFromRegAddr_own (hP : P.Documented) (h : cells.HoldBytes s)
    (hsize : P.regSize r ≠ 1) (haddr : P.regToRegAddr r = some addr) :
    Yields (body σ) ok (P.getExprFromRegAddr SymbolicExprBuilder.chain s ctx addr (P.regSize r))
      (fun x => P.ReadsView s (P.own s) ctx r x.1 ∧
        (x.1 = none → cells.Cleared s (regAddresses addr (P.regSize r)) x.2) ∧
        (x.1 ≠ none → x.2 = s)) := by
  have hread : Builds σ ok _ _ := getExprFromRegAddr_builds hP (shadowsRegs_own h)
    (own_consistentView P s ctx r) hsize haddr
  exact ((Yields.of_total hread).and (getExprFromRegAddr_state _ s ctx addr _)).mono
    fun x ⟨hx, hs⟩ => ⟨hx.1, hs⟩

/-- What is read from cells that hold bytes has as many bytes. -/
theorem getExprFromRegAddr_fits (h : cells.HoldBytes s) (addr n : Nat) :
    Yields (body σ) ok (P.getExprFromRegAddr SymbolicExprBuilder.chain s ctx addr n)
      (fun x => ∀ e, x.1 = some e → e.Trimmed ∧ e.IsBV (n * 8)) := by
  unfold getExprFromRegAddr
  split
  next =>
      split
      next => exact .stop
      next f _ =>
          have hcells : Builds σ ok _ _ := cells.getExprs_builds h.shadows
            (Cells.own_consistentAt s (fun a => ctx f (a - addr)) (regAddresses addr n))
          refine (Yields.of_total hcells).mono fun x hx e he => ⟨(hx.composed e he).trimmed, ?_⟩
          have hbv := (hx.composed e he).isBV
          rwa [regAddresses, List.length_range'] at hbv
  next => exact .ret nofun

end Reads

end Pin

/-! ### A few registers of x86-64 -/

/-- `RAX` with its views, `RBX`, a vector register with its lower half, and `RIP`. -/
inductive FewReg
  | rax | eax | ax | al | ah | rbx | ebx | ymm0 | xmm0 | rip
  deriving DecidableEq, Repr

namespace FewReg

def full : FewReg → FewReg
  | rax | eax | ax | al | ah => rax
  | rbx | ebx => rbx
  | ymm0 | xmm0 => ymm0
  | rip => rip

def size : FewReg → Nat
  | rax | rbx | rip => 8
  | eax | ebx => 4
  | ax => 2
  | al | ah => 1
  | xmm0 => 16
  | ymm0 => 32

/-- The table of these registers. -/
def pin : Pin FewReg where
  regs := [rax, eax, ax, al, ah, rbx, ebx, xmm0, ymm0, rip]
  regFullRegName := full
  regSize := size
  regIsGr r := r ∈ [rax, rbx]
  regIsXmm r := r = xmm0
  regIsYmm r := r = ymm0
  regIsGr32 r := r ∈ [eax, ebx]
  regIsUpper8 r := r = ah
  regInstPtr := rip

theorem pin_documented : pin.Documented where
  full_full r := by cases r <;> rfl
  size_pos r := by cases r <;> decide
  size_le r := by cases r <;> decide
  upper8 r := by cases r <;> decide
  not_upper8_full r := by cases r <;> rfl
  gr32 r := by cases r <;> decide

theorem consistent_written {N : Input → Nat} (h : N quietSession.input = 0)
    (ks : List (Pin.RegByte FewReg)) :
    Consistent quietSession (pin.written ax N fun _ => none) (fun _ => 0) ks := by
  intro k _ f hf
  obtain hf | ⟨j, rfl⟩ := Bytes.Map.store_eq_some hf
  · cases hf
  · simp [h, Bytes.byte]

end FewReg

namespace Pin

open FewReg (pin pin_documented consistent_written)

/-- `AX` is written, and `EAX` is read with the machine bytes above it. -/
theorem getExprFromReg_aliasing_eax : ∃ s w x s' w',
    Runs (body quietSession)
        (pin.getExprFromReg SymbolicExprBuilder.chain s (fun _ _ => 0) .eax) w (x, s') w' ∧
      pin.ReadsView s (pin.written .ax Memory.bytePair.value fun _ => none)
        (fun _ _ => 0) .eax x := by
  have hp : Memory.bytePair.IsBV (pin.regSize .ax * 8) := ⟨by decide, rfl, rfl⟩
  have hcov : Memory.bytePair.Covered quietSession := by
    simp [Memory.bytePair, Covered, Over, quietSession]
  obtain ⟨s, w, hr⟩ := Memory.exists_runs (σ := quietSession) (n := 20) (w := freshWorld 1)
    (p := pin.setExprToReg SymbolicExprBuilder.chain (fun _ => none) .ax (some Memory.bytePair))
    (by decide +kernel)
  have hstays := RegExprs.cells.setBytes_stays (b := SymbolicExprBuilder.chain) hcov
    (fun _ => none) 0 (regAddresses 0 2)
  have hsafe : Safe (body quietSession) (FoldsExactly fun _ => True)
      (pin.setExprToReg SymbolicExprBuilder.chain (fun _ => none) .ax (some Memory.bytePair))
      (freshWorld 1) :=
    fun m hm => foldsExactly_of_covers (hstays.safe quietSession (freshWorld 1) m hm) _
  exact ⟨s, w, getExprFromReg_aliasing pin_documented
    (.set (.start _) hp ⟨trivial, trivial⟩ hsafe hr) (consistent_written rfl _) (by decide) rfl⟩

/-- Write the quotient of a quotient to `AX` and read it again. -/
def writeThenRead : Build (Option Expr × RegExprs) := do
  let s ← pin.setExprToReg SymbolicExprBuilder.chain (fun _ => none) .ax (some Memory.wideQuotient)
  pin.getExprFromReg SymbolicExprBuilder.chain s (fun _ _ => 0) .ax

theorem writeThenRead_run : (writeThenRead.run (exec (body quietSession) 40) (freshWorld 5)).map
    (fun x => x.1.1.map fun e => e.value fun _ => 255) = some (some 255) := by
  decide +kernel

/-- Under the byte 255 `AX` is `255 / 16 / 16 = 0`, but the low byte read is `255 / 0`. -/
theorem getExprFromReg_not_aliasing : ∃ s w m,
    pin.Reached quietSession anyCall s w m ∧
      Consistent quietSession m (fun _ => 0) (pin.viewBytes .ax) ∧
      ¬ ∃ x s' w',
        Runs (body quietSession)
            (pin.getExprFromReg SymbolicExprBuilder.chain s (fun _ _ => 0) .ax) w (x, s') w' ∧
          pin.ReadsView s m (fun _ _ => 0) .ax x := by
  obtain ⟨s, w, hr⟩ := Memory.exists_runs (σ := quietSession) (n := 40) (w := freshWorld 5)
    (p := pin.setExprToReg SymbolicExprBuilder.chain (fun _ => none) .ax
      (some Memory.wideQuotient)) (by decide +kernel)
  have he : Memory.wideQuotient.IsBV (pin.regSize .ax * 8) := ⟨by decide, rfl, rfl⟩
  have ht : Memory.wideQuotient.Trimmed := by
    simp [Memory.wideQuotient, byteQuotient, Trimmed]
  refine ⟨s, w, _, .set (.start _) he ht (fun _ _ => trivial) hr,
    consistent_written (by decide +kernel) _, ?_⟩
  rintro ⟨x, s', w', hget, hx⟩
  have hrun : Runs (body quietSession) writeThenRead (freshWorld 5) (x, s') w' :=
    Runs.bind_iff.2 ⟨s, w, hr, hget⟩
  have hval := hrun.eq_of_run (f := fun x => x.1.map fun e => e.value fun _ => 255)
    writeThenRead_run
  obtain ⟨e, rfl, he⟩ := Option.map_eq_some_iff.1 hval
  have hread := hx.value e rfl fun _ => 255
  exact absurd (he.symm.trans hread) (by decide +kernel)

end Pin

end Qsym
