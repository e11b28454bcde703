import Qsym.Instrument.Copy

/-!
# Qsym.Instrument.Exchange

Two operands that exchange what they hold. Each is read as one expression, which is then
written to the other one, so a byte comes as a part of the expression of its operand
(`Exchanged`): as nothing, if the operand did not depend on the input, or with the value it
had for every input.
-/

namespace Qsym

open Procedure

namespace Operand

variable {Reg : Type} [DecidableEq Reg] (T : Process Reg)

def get : Operand Reg → Handler Reg (Option Expr)
  | .reg r => T.getExprFromReg r
  | .mem addr n => T.getExprFromMem addr n

def set (x : Option Expr) : Operand Reg → Handler Reg Unit
  | .reg r => T.setExprToReg r x
  | .mem addr n => T.setExprToMem addr n x

end Operand

namespace Process

open Handler Stateful Bytes
open RegExprs (cells)

variable {Reg : Type} [DecidableEq Reg] (T : Process Reg)

omit [DecidableEq Reg] in
/-- What has been at `k` has come as `x` through the expression of a whole operand: nothing, if
it did not depend on the input, or an expression of the same value. -/
def Exchanged (v : ShadowMap Reg) (k : Place Reg) (x : Option Expr) : Prop :=
  ¬ Symbolic v k ∧ x = none ∨ ∃ e, x = some e ∧ ∀ ρ, e.value ρ = T.byteValue v ρ k

/-- The operands have exchanged what they held. -/
structure Exchanges (v v' : ShadowMap Reg) (a b : Operand Reg) : Prop where
  left : ∀ i < a.size T, T.Exchanged v (b.place T i) (v' (a.place T i))
  right : ∀ i < b.size T, T.Exchanged v (a.place T i) (v' (b.place T i))
  upper : ∀ k, k ∈ a.upper T ∨ k ∈ b.upper T → v' k = none
  other : ∀ k, k ∉ a.written T → k ∉ b.written T → v' k = v k

/-- The expression has the size of the operand. -/
def Fits (o : Operand Reg) (x : Option Expr) : Prop :=
  ∀ e, x = some e → e.Trimmed ∧ e.IsBV (o.size T * 8)

/-- `x` stands for what the operand holds. -/
structure Carries (v : ShadowMap Reg) (o : Operand Reg) (x : Option Expr) : Prop where
  fits : T.Fits o x
  not_symbolic : x = none → ∀ k ∈ o.places T, ¬ Symbolic v k
  value : ∀ e, x = some e → ∀ ρ, e.value ρ = littleEndian ((o.places T).map (T.byteValue v ρ))

/-- The operand holds the bytes of `x`. -/
def Holds (v : ShadowMap Reg) (o : Operand Reg) (x : Option Expr) : Prop :=
  ∀ i < o.size T, match x with
    | none => v (o.place T i) = none
    | some e => ∃ y, v (o.place T i) = some y ∧ ∀ ρ, y.value ρ = byte (e.value ρ) i

variable {T} {σ : Session} {ok : MethodCall → Prop} {s s₁ s₂ : Shadow} {v v' : ShadowMap Reg}
variable {a b o : Operand Reg} {x y : Option Expr} {i : Nat}

omit [DecidableEq Reg] in
theorem Exchanges.symm (h : T.Exchanges v v' a b) : T.Exchanges v v' b a :=
  ⟨h.right, h.left, fun k hk => h.upper k hk.symm, fun k hb ha => h.other k ha hb⟩

omit [DecidableEq Reg] in
theorem Carries.congr (h : T.Carries v o x) (hv : ∀ k ∈ o.places T, v' k = v k) :
    T.Carries v' o x := by
  refine ⟨h.fits, fun hx k hk hsym => h.not_symbolic hx k hk ?_, fun e he ρ => ?_⟩
  · simpa only [Symbolic, hv k hk] using hsym
  · rw [h.value e he ρ]
    refine congrArg _ (List.map_congr_left fun k hk => ?_)
    rw [byteValue, byteValue, hv k hk]

omit [DecidableEq Reg] in
/-- A byte of what an operand held. -/
theorem Carries.exchanged (h : T.Carries v o x) (hv : ∀ ρ k, T.byteValue v ρ k < 256)
    (hsize : a.size T = o.size T) (ha : T.Holds v' a x) (hi : i < a.size T) :
    T.Exchanged v (o.place T i) (v' (a.place T i)) := by
  have ha := ha i hi
  rw [hsize] at hi
  cases x with
  | none => exact .inl ⟨h.not_symbolic rfl _ (Operand.mem_places_iff.2 ⟨i, hi, rfl⟩), ha⟩
  | some e =>
      obtain ⟨y, hy, hval⟩ := ha
      refine .inr ⟨y, hy, fun ρ => ?_⟩
      have hlt : ∀ c ∈ (o.places T).map (T.byteValue v ρ), c < 256 := by
        rw [List.forall_mem_map]
        exact fun k _ => hv ρ k
      rw [hval, h.value e rfl, byte_littleEndian hlt (by simpa [Operand.places_eq] using hi)]
      simp only [Operand.places_eq, List.getElem_map, List.getElem_range]

/-! ### Reads -/

/-- What is read after another operand is what was there before. -/
theorem Carries.before (hplaces : (∀ i, a.place T i = b.place T i) ∧ a.size T = b.size T ∨
      ∀ k ∈ b.places T, k ∉ a.places T) (hx : T.Reads s a x s₁) (hy : T.Reads s₁ b y s₂)
    (h : T.Carries (T.peek s₁) b y) : T.Carries (T.peek s) b y := by
  by_cases hnone : x = none
  · have hcleared := hx.cleared hnone
    rcases hplaces with ⟨hplace, hsize⟩ | hapart
    · have hsame : b.places T = a.places T := by
        rw [Operand.places_eq, Operand.places_eq, hsize]
        exact List.map_congr_left fun i _ => (hplace i).symm
      have hempty : ∀ k ∈ b.places T, T.peek s₁ k = none :=
        fun k hk => hcleared.empty k (hsame ▸ hk)
      obtain rfl : y = none := hy.none_iff.2 (readsNull_of_empty hempty)
      refine ⟨nofun, fun _ k hk => ?_, nofun⟩
      exact (hx.none_iff.1 hnone).not_symbolic (hsame ▸ hk)
    · exact h.congr fun k hk => (hcleared.same k (hapart k hk)).symm
  · rw [hx.same hnone] at h
    exact h

section Reads

variable (hb : T.builder = SymbolicExprBuilder.chain) (hs : s.WellFormed)
include hb hs

theorem getExprFromReg_fits (r : Reg) :
    Ensures (body σ) ok (T.getExprFromReg r) s fun x _ _ => T.Fits (.reg r) x := by
  have hmulti (addr : Nat) : Ensures (body σ) ok (onRegs fun s =>
      T.pin.getExprFromRegAddr T.builder s T.context addr (T.pin.regSize r) : Handler Reg _)
      s fun x _ _ => T.Fits (.reg r) x := by
    rw [hb]
    refine (onRegs_ensures (P := fun x => T.Fits (.reg r) x.1) ?_).mono fun x s' _ h => h.2.2.2
    exact Pin.getExprFromRegAddr_fits hs.regs addr _
  unfold getExprFromReg Pin.getExprFromReg
  cases haddr : T.pin.regToRegAddr r with
  | none => exact Yields.stop
  | some addr =>
      have hmulti := hmulti addr
      simp only
      split
      next h1 =>
          refine Yields.ret fun e he => ⟨(hs.regs addr e he).1, ?_⟩
          rw [Operand.size, h1]
          exact (hs.regs addr e he).2
      next h2 => exact h2 ▸ hmulti
      next h4 => exact h4 ▸ hmulti
      next h8 => exact h8 ▸ hmulti
      next h16 => exact h16 ▸ hmulti
      next h32 => exact h32 ▸ hmulti
      next => exact Yields.stop

theorem get_carries (hP : T.pin.Documented) (o : Operand Reg) :
    Ensures (body σ) ok (o.get T) s fun x s' _ =>
    T.Reads s o x s' ∧ T.Carries (T.peek s) o x := by
  have hcarries {x : Option Expr} {s' : Shadow} (h : T.Reads s o x s') (hx : T.Fits o x) :
      T.Reads s o x s' ∧ T.Carries (T.peek s) o x :=
    ⟨h, hx, fun hnone k hk => (h.none_iff.1 hnone).not_symbolic hk, h.value⟩
  cases o with
  | reg r =>
      refine ((getExprFromReg_reads hP hb hs r).and (getExprFromReg_fits hb hs r)).mono ?_
      rintro x s' _ ⟨⟨_, hread⟩, hx⟩
      exact hcarries hread hx
  | mem addr n =>
      have hcells : Builds σ ok _ _ := Memory.cells.getExprs_builds hs.memory.shadows
        (Cells.own_consistentAt s.memory T.memory (Memory.addresses addr n))
      have hfits : Yields (body σ) ok (s.memory.getExprFromMem T.builder addr T.memory n)
          (fun x => T.Fits (.mem addr n) x.1) := by
        rw [hb]
        refine (Yields.of_total hcells).mono fun x hx e he => ⟨(hx.composed e he).trimmed, ?_⟩
        have hbv := (hx.composed e he).isBV
        rwa [Memory.addresses, List.length_map, List.length_range] at hbv
      refine ((getExprFromMem_reads hb hs addr n).and (onMemory_ensures hfits)).mono ?_
      rintro x s' _ ⟨⟨_, hread⟩, h⟩
      exact hcarries hread h.2.2.2

end Reads

/-! ### Writes -/

section Writes

variable (hP : T.pin.Documented) (hb : T.builder = SymbolicExprBuilder.chain)
include hP hb

/-- Something wider than the register is cut off. -/
theorem setExprToReg_holds_low {r : Reg} {e : Expr} {n : Nat} (he : e.IsBV n) (ht : e.Trimmed)
    (hn : T.pin.regSize r * 8 ≤ n) (h1 : T.pin.regSize r = 1 → n = 8) :
    Ensures (body σ) (FoldsExactly fun _ => True) (T.setExprToReg r (some e)) s fun _ s' _ =>
      T.Holds (T.peek s') (.reg r) (some e) ∧ ∀ k ∈ T.upperPlaces r, T.peek s' k = none := by
  have hbytes : Yields (body σ) (FoldsExactly fun _ => True)
      (T.pin.setExprToReg T.builder s.regs r (some e)) _ :=
        hb ▸ Pin.setExprToReg_lowBytes hP he hn h1 ht
  refine (onRegs_unit (f := fun s => T.pin.setExprToReg T.builder s r (some e)) hbytes).mono ?_
  intro _ s' _ ⟨_, _, _, base, hbase, hupper, hset⟩
  have hview := hP.view_le r
  refine ⟨fun i hi => ?_, fun k hk => ?_⟩
  · rw [Operand.size] at hi
    simp only [Operand.place, bytePlace, peek, Pin.peekByte, hbase]
    rw [if_pos (by omega)]
    exact hset i hi
  · rw [upperPlaces] at hk
    split at hk
    next h32 =>
        obtain ⟨j, rfl, hle, hlt⟩ := mem_regPlaces_iff.1 hk
        simp only [peek, Pin.peekByte, hbase]
        rw [if_pos (by rw [(hP.gr32 r h32).2]; omega)]
        refine hupper _ ?_
        rw [if_pos h32, Pin.regAddresses, List.mem_range'_1]
        omega
    next => cases hk

theorem setExprToReg_holds (r : Reg) (hx : T.Fits (.reg r) x) :
    Ensures (body σ) (FoldsExactly fun _ => True) (T.setExprToReg r x) s fun _ s' _ =>
      T.Holds (T.peek s') (.reg r) x ∧ ∀ k ∈ T.upperPlaces r, T.peek s' k = none := by
  cases x with
  | none =>
      refine (setExprToReg_written hP r none).mono fun _ s' _ ⟨_, _, hwritten⟩ => ?_
      have hempty (k : Place Reg) (hk : k ∈ (Operand.reg r).written T) : T.peek s' k = none :=
        hwritten.empty rfl k ((Operand.mem_dropped_iff hP (.reg r) k).2 hk)
      simp only [Operand.written_eq, List.mem_append] at hempty
      refine ⟨fun i hi => hempty _ (.inl ?_), fun k hk => hempty k (.inr hk)⟩
      exact Operand.mem_places_iff.2 ⟨i, hi, rfl⟩
  | some e =>
      obtain ⟨ht, he⟩ := hx e rfl
      refine setExprToReg_holds_low hP hb he ht (Nat.le_refl _) fun h1 => ?_
      rw [Operand.size, h1]

omit hP in
theorem setExprToMem_holds {addr : Addr} {n : Nat} (hn : n ≤ 2 ^ 64) (hx : T.Fits (.mem addr n) x) :
    Ensures (body σ) (FoldsExactly fun _ => True) (T.setExprToMem addr n x) s fun _ s' _ =>
      T.Holds (T.peek s') (.mem addr n) x := by
  cases x with
  | none =>
      refine (setExprToMem_written addr n none).mono ?_
      rintro _ s' _ ⟨_, _, hwritten⟩ i hi
      exact hwritten.empty rfl _ (Operand.mem_places_iff.2 ⟨i, hi, rfl⟩)
  | some e =>
      obtain ⟨ht, he⟩ := hx e rfl
      have hnodup : (Memory.addresses addr n).Nodup := by
        refine List.Nodup.map_on (fun i hi j hj h => ?_) List.nodup_range
        exact Operand.place_inj (T := T) (o := .mem addr n) hn (List.mem_range.1 hi)
          (List.mem_range.1 hj) (congrArg Place.mem h)
      have hbytes : Yields (body σ) (FoldsExactly fun _ => True)
          (s.memory.setExprToMem T.builder addr n (some e)) _ := hb ▸
        Memory.cells.setBytes_bytes (i := 0) he ht (by simp [Memory.addresses, Operand.size]) hnodup
      refine (onMemory_unit (f := fun mem => mem.setExprToMem T.builder addr n (some e))
        hbytes).mono ?_
      rintro _ s' _ ⟨_, _, _, _, hset⟩ i hi
      rw [Operand.size] at hi
      obtain ⟨y, hy, hval⟩ := hset i (addr + BitVec.ofNat 64 i) (by
        simp only [Memory.addresses, List.getElem?_map, List.getElem?_range hi, Option.map_some])
      rw [Nat.zero_add] at hval
      exact ⟨y, hy, hval.value⟩

theorem set_holds (ho : o.size T ≤ 2 ^ 64) (hx : T.Fits o x) :
    Ensures (body σ) (FoldsExactly fun _ => True) (o.set T x) s fun _ s' _ =>
      T.Holds (T.peek s') o x ∧ (∀ k ∈ o.upper T, T.peek s' k = none) ∧
        ∀ k, k ∉ o.written T → T.peek s' k = T.peek s k := by
  cases o with
  | reg r =>
      refine ((setExprToReg_holds hP hb r hx).and (setExprToReg_written hP r x)).mono ?_
      intro _ s' _ ⟨⟨hholds, hupper⟩, _, _, hwritten⟩
      refine ⟨hholds, hupper, fun k hk => hwritten.same k ?_⟩
      exact mt (Operand.mem_dropped_iff hP (.reg r) k).1 hk
  | mem addr n =>
      refine ((setExprToMem_holds hb ho hx).and (setExprToMem_written (T := T) addr n x)).mono ?_
      intro _ s' _ ⟨hholds, _, _, hwritten⟩
      refine ⟨hholds, nofun, fun k hk => hwritten.same k ?_⟩
      exact mt (Operand.mem_dropped_iff hP (.mem addr n) k).1 hk

end Writes

/-! ### Exchanges -/

section Exchanges

variable (hP : T.pin.Documented) (hb : T.builder = SymbolicExprBuilder.chain)
  (hsize : a.size T = b.size T) (hle : a.size T ≤ 2 ^ 64)
  (hreg : ∀ addr addr' n n', ¬ (a = .mem addr n ∧ b = .mem addr' n'))
include hP hb hsize hle hreg

omit hle in
/-- Both operands are read as they were. -/
theorem get_both (hs : s.WellFormed) : Ensures (body σ) ok (a.get T) s fun x s₁ _ =>
    Ensures (body σ) ok (b.get T) s₁ fun y s₂ _ =>
      T.Carries (T.peek s) a x ∧ T.Carries (T.peek s) b y ∧
        ∀ k, k ∉ a.places T → k ∉ b.places T → T.peek s₂ k = T.peek s k := by
  refine (get_carries hb hs hP a).mono fun x s₁ _ ⟨hread, hx⟩ => ?_
  refine (get_carries hb hread.wellFormed hP b).mono fun y s₂ _ ⟨hread', hy⟩ => ⟨hx, ?_, ?_⟩
  · refine hy.before ?_ hread hread'
    rcases Operand.place_eq_or_ne hP hsize hreg with hsame | hapart
    · exact .inl ⟨hsame, hsize⟩
    · refine .inr fun k hk hk' => ?_
      obtain ⟨j, hj, rfl⟩ := Operand.mem_places_iff.1 hk
      obtain ⟨i, hi, h⟩ := Operand.mem_places_iff.1 hk'
      exact hapart i hi j hj h.symm
  · intro k ha hb
    rcases hread'.loses k with h | ⟨hk, -⟩
    · rcases hread.loses k with h' | ⟨hk, -⟩
      · rw [h, h']
      · exact absurd hk ha
    · exact absurd hk hb

/-- Each operand is written with what the other one held. -/
theorem set_both (hv : ∀ ρ k, T.byteValue v ρ k < 256) (hx : T.Carries v a x)
    (hy : T.Carries v b y)
    (hother : ∀ k, k ∉ a.places T → k ∉ b.places T → T.peek s k = v k) :
    Ensures (body σ) (FoldsExactly fun _ => True) (a.set T y) s fun _ s₁ _ =>
      Ensures (body σ) (FoldsExactly fun _ => True) (b.set T x) s₁ fun _ s₂ _ =>
        T.Exchanges v (T.peek s₂) a b := by
  have hya : T.Fits a y := by
    rw [Fits, hsize]
    exact hy.fits
  have hxb : T.Fits b x := by
    rw [Fits, ← hsize]
    exact hx.fits
  refine (set_holds hP hb hle hya).mono fun _ s₁ _ ⟨ha₁, hupper₁, hsame₁⟩ => ?_
  refine (set_holds hP hb (hsize ▸ hle) hxb).mono fun _ s₂ _ ⟨hb₂, hupper₂, hsame₂⟩ => ?_
  refine ⟨fun i hi => ?_, fun i hi => hx.exchanged hv hsize.symm hb₂ hi, fun k hk => ?_, ?_⟩
  · rcases Operand.place_eq_or_ne hP hsize hreg with hplace | hapart
    · rw [hplace i, ← hplace i]
      have h := hx.exchanged hv hsize.symm hb₂ (hsize ▸ hi)
      rwa [← hplace i] at h
    · rw [hsame₂ (a.place T i)]
      · exact hy.exchanged hv hsize ha₁ hi
      · rw [Operand.written_eq, List.mem_append, Operand.mem_places_iff]
        rintro (⟨j, hj, h⟩ | h)
        · exact hapart i hi j hj h
        · exact Operand.place_notMem_upper hP hsize hi h
  · by_cases hkb : k ∈ b.upper T
    · exact hupper₂ k hkb
    · have hka := hk.resolve_right hkb
      rw [hsame₂ k, hupper₁ k hka]
      rw [Operand.written_eq, List.mem_append, Operand.mem_places_iff]
      rintro (⟨j, hj, rfl⟩ | h)
      · exact Operand.place_notMem_upper hP hsize.symm hj hka
      · exact hkb h
  · intro k hka hkb
    rw [hsame₂ k hkb, hsame₁ k hka]
    rw [Operand.written_eq, List.mem_append, not_or] at hka hkb
    exact hother k hka.1 hkb.1

end Exchanges

end Process

end Qsym
