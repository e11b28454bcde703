import Qsym.Bytes.Copy
import Qsym.Instrument.Frame

/-!
# Qsym.Instrument.Copy

Handlers that copy bytes, place by place. The shadow after a loop of `moveByte` is that
before with the steps of the loop done one after the other (`Bytes.copy`), where the first
byte that goes to a 32-bit register clears the upper half of the full one.

What comes before such a loop only takes expressions away: a pointer that is concretised
keeps none, and a register of an address loses what does not depend on the input (`Loses`).
-/

namespace Qsym

open Procedure

namespace Process

variable {Reg : Type} (T : Process Reg)

/-- The place of byte `off` of a register. -/
def bytePlace (r : Reg) (off : Nat) : Place Reg :=
  .reg (T.pin.regFullRegName r) ((if T.pin.regIsUpper8 r then 1 else 0) + off)

/-- The places that a 32-bit result clears beyond the register itself. -/
def upperPlaces (r : Reg) : List (Place Reg) :=
  if T.pin.regIsGr32 r then T.regPlaces r 4 4 else []

/-- The place of byte `i` of the memory at `addr`. -/
def memPlace (addr : Addr) (i : Nat) : Place Reg :=
  .mem (addr + BitVec.ofNat 64 i)

variable {T} {dst src : Reg} {addr : Addr} {i : Nat}

/-- A register has no byte in the upper half of a 32-bit one, unless it is a wider view. -/
theorem bytePlace_notMem_upper (hi : i < 4) (hsrc : T.pin.regIsUpper8 src = true → i < 1) :
    T.bytePlace src i ∉ T.upperPlaces dst := by
  rw [upperPlaces]
  split
  · rw [mem_regPlaces_iff]
    rintro ⟨j, hj, hle, -⟩
    obtain ⟨-, rfl⟩ := Place.reg.inj hj
    split at hle
    next hup =>
        have := hsrc hup
        omega
    next => omega
  · exact List.not_mem_nil

theorem memPlace_notMem_upper : memPlace addr i ∉ T.upperPlaces dst := by
  rw [upperPlaces]
  split
  · rw [mem_regPlaces_iff]
    rintro ⟨j, hj, -⟩
    cases hj
  · exact List.not_mem_nil

end Process

namespace Operand

variable {Reg : Type} (T : Process Reg) {o o' : Operand Reg} {k : Place Reg} {i j : Nat}

/-- The number of bytes. -/
def size : Operand Reg → Nat
  | .reg r => T.pin.regSize r
  | .mem _ n => n

/-- The place of byte `i`. -/
def place : Operand Reg → Nat → Place Reg
  | .reg r, i => T.bytePlace r i
  | .mem addr _, i => Process.memPlace addr i

/-- What a 32-bit result clears beyond the operand. -/
def upper : Operand Reg → List (Place Reg)
  | .reg r => T.upperPlaces r
  | .mem _ _ => []

variable {T}

theorem places_eq (o : Operand Reg) : o.places T = (List.range (o.size T)).map (o.place T) := by
  cases o with
  | reg r =>
      rw [Process.places_reg, Process.regPlaces, Pin.bytesOf,
        List.range'_eq_map_range, List.map_map,
        List.map_map]
      rfl
  | mem addr n =>
      rw [places, Memory.addresses, List.map_map]
      rfl

theorem mem_places_iff : k ∈ o.places T ↔ ∃ i < o.size T, k = o.place T i := by
  simp only [places_eq, List.mem_map, List.mem_range, eq_comm]

theorem written_eq (o : Operand Reg) : o.written T = o.places T ++ o.upper T := by
  cases o <;> rfl

/-- What is cleared with an operand is what is written with it. -/
theorem mem_dropped_iff (hP : T.pin.Documented) (o : Operand Reg) (k : Place Reg) :
    k ∈ o.dropped T ↔ k ∈ o.written T := by
  cases o with
  | mem addr n => simp only [dropped, written, List.append_nil]
  | reg r =>
      simp only [dropped, written]
      by_cases h32 : T.pin.regIsGr32 r = true
      · obtain ⟨h4, h8⟩ := hP.gr32 r h32
        simp only [h32, if_true, List.mem_append, Process.places_reg,
          Process.mem_regPlaces_iff, h4, h8,
          hP.not_upper8_of_gr32 h32, Bool.false_eq_true, if_false, ← exists_or]
        refine exists_congr fun j => ?_
        by_cases hk : k = .reg (T.pin.regFullRegName r) j
        · simp only [hk, true_and]
          omega
        · simp only [hk, false_and, or_false]
      · simp [h32]

/-- The bytes of an operand are apart. -/
theorem place_inj (ho : o.size T ≤ 2 ^ 64) (hi : i < o.size T) (hj : j < o.size T)
    (h : o.place T i = o.place T j) : i = j := by
  cases o with
  | reg r =>
      obtain ⟨-, h⟩ := Place.reg.inj h
      omega
  | mem addr n =>
      have hij := congrArg BitVec.toNat (add_left_cancel (Place.mem.inj h))
      rw [size] at ho hi hj
      rwa [BitVec.toNat_ofNat, BitVec.toNat_ofNat, Nat.mod_eq_of_lt (by omega),
        Nat.mod_eq_of_lt (by omega)] at hij

/-- No operand of the same size has a byte in what a 32-bit result clears. -/
theorem place_notMem_upper (hP : T.pin.Documented) (hsize : o.size T = o'.size T)
    (hi : i < o.size T) : o.place T i ∉ o'.upper T := by
  cases o' with
  | mem addr n => exact List.not_mem_nil
  | reg r' =>
      cases o with
      | mem addr n => exact Process.memPlace_notMem_upper
      | reg r =>
          by_cases h32 : T.pin.regIsGr32 r' = true
          · have h4 := (hP.gr32 r' h32).1
            have hup := hP.upper8 r
            simp only [size] at hsize hi
            refine Process.bytePlace_notMem_upper (by omega) fun h => ?_
            have := (hup h).1
            omega
          · rw [upper, Process.upperPlaces, if_neg h32]
            exact List.not_mem_nil

/-- Operands of the same size are one or apart. -/
theorem place_eq_or_ne (hP : T.pin.Documented) (hsize : o.size T = o'.size T)
    (hreg : ∀ addr addr' n n', ¬ (o = .mem addr n ∧ o' = .mem addr' n')) :
    (∀ i, o.place T i = o'.place T i) ∨
      ∀ i < o.size T, ∀ j < o'.size T, o.place T i ≠ o'.place T j := by
  cases o with
  | mem addr n =>
      cases o' with
      | mem addr' n' => exact absurd ⟨rfl, rfl⟩ (hreg addr addr' n n')
      | reg r' => exact .inr fun i _ j _ => nofun
  | reg r =>
      cases o' with
      | mem addr' n' => exact .inr fun i _ j _ => nofun
      | reg r' =>
          have hup := hP.upper8 r
          have hup' := hP.upper8 r'
          simp only [size] at hsize
          by_cases heq : T.pin.regFullRegName r = T.pin.regFullRegName r' ∧
              T.pin.regIsUpper8 r = T.pin.regIsUpper8 r'
          · exact .inl fun i => by simp only [place, Process.bytePlace, heq.1, heq.2]
          · refine .inr fun i hi j hj h => heq ?_
            obtain ⟨hfull, hoff⟩ := Place.reg.inj h
            refine ⟨hfull, ?_⟩
            simp only [size] at hi hj
            rw [Bool.eq_iff_iff]
            constructor
            · intro h₁
              by_contra h₂
              simp only [h₁, if_true, h₂, if_false] at hoff
              have := (hup h₁).1
              omega
            · intro h₂
              by_contra h₁
              simp only [h₁, if_true, h₂, if_false] at hoff
              have := (hup' h₂).1
              omega

end Operand

namespace Process

open Handler Stateful Bytes
open RegExprs (cells)

variable {Reg : Type} [DecidableEq Reg] (T : Process Reg)

omit [DecidableEq Reg] in
/-- From `v` to `v'` the places in `ks` may lose what does not depend on the input, and
nothing else changes. -/
def Loses (ks : List (Place Reg)) (v v' : ShadowMap Reg) : Prop :=
  ∀ k, v' k = v k ∨ k ∈ ks ∧ ¬ Symbolic v k ∧ v' k = none

variable {T} {σ : Session} {ok : MethodCall → Prop} {s : Shadow} {r : Reg} {off n : Nat}
variable {v v' v'' : ShadowMap Reg} {ks ks' : List (Place Reg)} {k : Place Reg}

theorem clear_of_mem (h : k ∈ ks) : clear v ks k = none :=
  if_pos h

theorem clear_of_notMem (h : k ∉ ks) : clear v ks k = v k :=
  if_neg h

@[simp] theorem clear_nil (v : ShadowMap Reg) : clear v [] = v := by
  funext k
  exact clear_of_notMem List.not_mem_nil

theorem clear_clear (v : ShadowMap Reg) (ks ks' : List (Place Reg)) :
    clear (clear v ks) ks' = clear v (ks ++ ks') := by
  funext k
  simp only [clear, List.mem_append]
  by_cases hk : k ∈ ks <;> simp [hk]

/-! ### What comes before a copy -/

omit [DecidableEq Reg] in
theorem Loses.refl (ks : List (Place Reg)) (v : ShadowMap Reg) : Loses ks v v :=
  fun _ => .inl rfl

omit [DecidableEq Reg] in
theorem Loses.mono (h : Loses ks v v') (hks : ks ⊆ ks') : Loses ks' v v' := by
  intro k
  rcases h k with hsame | ⟨hk, hsym, hnone⟩
  · exact .inl hsame
  · exact .inr ⟨hks hk, hsym, hnone⟩

omit [DecidableEq Reg] in
theorem Loses.trans (h : Loses ks v v') (h' : Loses ks v' v'') : Loses ks v v'' := by
  intro k
  rcases h' k with hsame' | ⟨hk, hsym, hnone⟩
  · rw [hsame']
    exact h k
  · rcases h k with hsame | ⟨hk, hsym', -⟩
    · exact .inr ⟨hk, by simpa only [Symbolic, hsame] using hsym, hnone⟩
    · exact .inr ⟨hk, hsym', hnone⟩

/-- A read takes away what does not depend on the input. -/
theorem Reads.loses {o : Operand Reg} {x : Option Expr} {s' : Shadow} (h : T.Reads s o x s') :
    Loses (o.places T) (T.peek s) (T.peek s') := by
  intro k
  by_cases hx : x = none
  · by_cases hk : k ∈ o.places T
    · exact .inr ⟨hk, (h.none_iff.1 hx).not_symbolic hk, (h.cleared hx).empty k hk⟩
    · exact .inl ((h.cleared hx).same k hk)
  · rw [h.same hx]
    exact .inl rfl

section Before

variable (hP : T.pin.Documented) (hb : T.builder = SymbolicExprBuilder.chain) (hs : s.WellFormed)
include hP hb hs

/-- `makeAddrConcrete` reads the registers of the address. -/
theorem makeAddrConcrete_loses (m : MemArg Reg) : Ensures (body σ) ok (T.makeAddrConcrete m) s
    fun _ s' _ => s'.WellFormed ∧ Loses (m.places T) (T.peek s) (T.peek s') := by
  have hreg (s : Shadow) (hs : s.WellFormed) (r : Reg) :
      Ensures (body σ) ok (T.getExprFromAddrReg r) s fun _ s' _ =>
        s'.WellFormed ∧ Loses (T.addrRegPlaces r) (T.peek s) (T.peek s') := by
    unfold getExprFromAddrReg addrRegPlaces
    split
    next =>
        refine (getExprFromReg_reads hP hb hs r).mono ?_
        rintro x s' _ ⟨_, hread⟩
        exact ⟨hread.wellFormed, hread.loses⟩
    next => exact .ret ⟨hs, .refl _ _⟩
  have haddr : Ensures (body σ) ok (T.getAddrExpr m.base m.index m.disp m.scale) s fun _ s' _ =>
      s'.WellFormed ∧ Loses (m.places T) (T.peek s) (T.peek s') := by
    refine Ensures.bind (hreg s hs m.base) ?_
    rintro eBase s₁ _ ⟨hs₁, hbase⟩
    refine Ensures.bind (hreg s₁ hs₁ m.index) ?_
    rintro eIndex s₂ _ ⟨hs₂, hindex⟩
    refine Ensures.lift (P := fun _ => True) (fun _ _ _ _ _ => trivial) fun x _ => ⟨hs₂, ?_⟩
    have hbase := hbase.mono (List.subset_append_left _ (T.addrRegPlaces m.index))
    exact hbase.trans (hindex.mono (List.subset_append_right _ _))
  refine Ensures.bind haddr fun x s₁ _ h₁ => ?_
  cases x with
  | none => exact .ret h₁
  | some e => exact Ensures.tell h₁

/-- A pointer that is concretised keeps no expression. -/
theorem concretizeReg_clears (hr : T.pin.regFullRegName r = r) :
    Ensures (body σ) ok (T.concretizeReg r) s fun _ s' _ => s'.WellFormed ∧
      T.peek s' = clear (T.peek s) ((Operand.reg r).places T) := by
  have hdropped : (Operand.reg r).dropped T = (Operand.reg r).places T := by
    have h32 : T.pin.regIsGr32 r = false := by
      by_contra h32
      obtain ⟨h4, h8⟩ := hP.gr32 r (by simpa using h32)
      rw [hr] at h8
      omega
    rw [Operand.dropped, if_neg (by simp [h32])]
  refine (concretizeReg_concretized hP hb hs r).mono fun _ s' _ hconc => ⟨hconc.wellFormed, ?_⟩
  by_cases hnull : T.ReadsNull (T.peek s) (.reg r)
  · exact (hconc.null hnull).2.peek_eq
  · rw [← hdropped]
    exact (hconc.equation hnull).2.peek_eq

end Before

/-! ### One byte -/

theorem getExprFromRegByte_reads
    (hoff : (if T.pin.regIsUpper8 r then 1 else 0) + off < T.pin.regSize (T.pin.regFullRegName r)) :
    Ensures (body σ) ok (T.getExprFromRegByte r off) s fun x s' _ =>
      s' = s ∧ x = T.peek s (T.bytePlace r off) := by
  unfold getExprFromRegByte
  cases haddr : T.pin.regToRegAddr r with
  | none => exact Yields.stop
  | some addr =>
      obtain ⟨base, hbase, rfl⟩ := Pin.regToRegAddr_eq_some haddr
      refine Yields.ret ⟨rfl, ?_⟩
      simp only [peek, bytePlace, if_pos hoff, Pin.peekByte, hbase, Nat.add_assoc]

theorem getExprFromMemByte_reads (addr : Addr) :
    Ensures (body σ) ok (getExprFromMemByte addr : Handler Reg _) s fun x s' _ =>
      s' = s ∧ x = T.peek s (.mem addr) :=
  Yields.ret ⟨rfl, rfl⟩

theorem setExprToMemByte_stores (addr : Addr) (x : Option Expr) :
    Ensures (body σ) ok (setExprToMemByte addr x : Handler Reg Unit) s fun _ s' _ =>
      T.peek s' = Function.update (T.peek s) (.mem addr) x := by
  refine (onMemory_unit (f := fun mem => mem.setByteToMem addr x)
    (Memory.cells.setExpr_state s.memory addr x)).mono ?_
  intro _ s' _ ⟨_, hr, _, hset, hsame⟩
  funext k
  cases k with
  | reg f i =>
      have hne : Place.reg f i ≠ Place.mem addr := nofun
      rw [Function.update_of_ne hne]
      simp only [peek, hr]
  | mem a =>
      by_cases ha : a = addr
      · rw [ha, Function.update_self]
        exact hset
      · rw [Function.update_of_ne fun h => ha (Place.mem.inj h)]
        exact hsame a ha

/-- The assignment to one cell of a register. -/
theorem peek_of_setExpr {base : Nat} {s' : Shadow} {x : Option Expr}
    (hbase : T.pin.mapRegToAddr.lookup (T.pin.regFullRegName r) = some base)
    (hoff : (if T.pin.regIsUpper8 r then 1 else 0) + off < T.pin.regSize (T.pin.regFullRegName r))
    (hm : s'.memory = s.memory)
    (hset : s'.regs (base + ((if T.pin.regIsUpper8 r then 1 else 0) + off)) = x)
    (hsame : ∀ a, a ≠ base + ((if T.pin.regIsUpper8 r then 1 else 0) + off) →
      s'.regs a = s.regs a) :
    T.peek s' = Function.update (T.peek s) (T.bytePlace r off) x := by
  funext k
  by_cases hk : k = T.bytePlace r off
  · rw [hk, Function.update_self]
    simp only [peek, bytePlace, if_pos hoff, Pin.peekByte, hbase, hset]
  · rw [Function.update_of_ne hk]
    refine peek_of_cells (n := 1) hbase (Nat.succ_le_of_lt hoff) hm (fun a ha => hsame a ?_) ?_
    · rintro rfl
      simp [Pin.regAddresses] at ha
    · rw [mem_regPlaces_iff]
      rintro ⟨j, rfl, hle, hlt⟩
      obtain rfl : j = (if T.pin.regIsUpper8 r then 1 else 0) + off := by omega
      exact hk rfl

/-- A byte of a register is assigned over what is there. -/
theorem setRegByte_stores {regs : RegExprs} {v : Place Reg → Option Expr} (x : Option Expr)
    (hoff : (if T.pin.regIsUpper8 r then 1 else 0) + off < T.pin.regSize (T.pin.regFullRegName r))
    (h : ∀ base, T.pin.mapRegToAddr.lookup (T.pin.regFullRegName r) = some base →
      T.peek { s with regs } = v) :
    Yields (body σ) ok
      (match T.pin.regToRegAddr r with
        | none => .stop
        | some addr => do
            let s ← cells.setExpr regs (addr + off) x
            return ((), s)) fun y =>
      T.peek { s with regs := y.2 } = Function.update v (T.bytePlace r off) x := by
  cases haddr : T.pin.regToRegAddr r with
  | none => exact .stop
  | some addr =>
      obtain ⟨base, hbase, rfl⟩ := Pin.regToRegAddr_eq_some haddr
      rw [← h base hbase]
      refine (cells.setExpr_state regs _ x).bind fun regs' h' => .ret ?_
      obtain ⟨hset, hsame⟩ := h'
      rw [Nat.add_assoc] at hset hsame
      exact peek_of_setExpr hbase hoff rfl hset hsame

theorem setExprToRegByte_stores (hP : T.pin.Documented) (x : Option Expr)
    (hoff : (if T.pin.regIsUpper8 r then 1 else 0) + off < T.pin.regSize (T.pin.regFullRegName r)) :
    Ensures (body σ) ok (T.setExprToRegByte r x off) s fun _ s' _ => T.peek s' =
      Function.update (clear (T.peek s) (if off = 0 then T.upperPlaces r else []))
        (T.bytePlace r off) x := by
  -- what is cleared first is the upper half or nothing
  let Upper (regs : RegExprs) : Prop := ∀ base,
    T.pin.mapRegToAddr.lookup (T.pin.regFullRegName r) = some base →
      T.peek { s with regs } = clear (T.peek s) (if off = 0 then T.upperPlaces r else [])
  have hzero (h0 : off = 0) : Yields (body σ) ok (T.pin.zeroExtend s.regs r) Upper := by
    cases hbase : T.pin.mapRegToAddr.lookup (T.pin.regFullRegName r) with
    | none =>
        intro _ _ _ _ _ base hbase'
        cases hbase.symm.trans hbase'
    | some base =>
        refine (Pin.zeroExtend_cells hP hbase).mono fun regs h₁ _ _ => ?_
        rw [if_pos h0, upperPlaces]
        split at h₁
        next h32 =>
            have hcleared : T.Cleared s (· ∈ T.regPlaces r 4 4) { s with regs } :=
              cleared_of_cells hbase (hP.gr32 r h32).2.ge rfl h₁
            rw [if_pos h32, hcleared.peek_eq]
        next h32 =>
            have hcleared : T.Cleared s (· ∈ T.regPlaces r 0 0) { s with regs } :=
              cleared_of_cells hbase (Nat.zero_le _) rfl h₁
            rw [if_neg h32, hcleared.peek_eq]
            rfl
  refine (onRegs_ensures (P := fun y => T.peek { s with regs := y.2 } = Function.update
    (clear (T.peek s) (if off = 0 then T.upperPlaces r else [])) (T.bytePlace r off) x) ?_).mono ?_
  · by_cases h0 : off = 0
    · simp only [if_pos h0]
      refine (hzero h0).bind fun _ h₁ => setRegByte_stores x hoff fun base hbase => ?_
      rw [h₁ base hbase, if_pos h0]
    · simp only [if_neg h0, clear_nil]
      exact setRegByte_stores x hoff fun _ _ => rfl
  · rintro _ s' _ ⟨_, hm, he, hpeek⟩
    have heq : { s with regs := s'.regs } = s' := Shadow.ext rfl hm.symm he.symm
    exact heq ▸ hpeek

/-! ### Loops -/

theorem moveByte_copies {get : Handler Reg (Option Expr)} {put : Option Expr → Handler Reg Unit}
    {src dst : Place Reg} {g : ShadowMap Reg → ShadowMap Reg}
    (hget : ∀ s, Ensures (body σ) ok get s fun x s' _ => s' = s ∧ x = T.peek s src)
    (hput : ∀ x s, Ensures (body σ) ok (put x) s fun _ s' _ =>
      T.peek s' = Function.update (g (T.peek s)) dst x) (s : Shadow) :
    Ensures (body σ) ok (moveByte get put) s fun _ s' _ =>
      T.peek s' = Function.update (g (T.peek s)) dst (T.peek s src) := by
  refine Ensures.bind (hget s) fun x s₁ _ ⟨hs₁, hx⟩ => ?_
  rw [← hx, ← hs₁]
  exact hput x s₁

theorem forEach_copies {f : Nat → Handler Reg Unit} {p : Nat → Place Reg × Place Reg}
    {is : List Nat} (h : ∀ i ∈ is, ∀ s, Ensures (body σ) ok (f i) s fun _ s' _ =>
      T.peek s' = Function.update (T.peek s) (p i).1 (T.peek s (p i).2)) (s : Shadow) :
    Ensures (body σ) ok (forEach f is) s fun _ s' _ => T.peek s' = copy (is.map p) (T.peek s) := by
  induction is generalizing s with
  | nil => exact .ret rfl
  | cons i is ih =>
      obtain ⟨hi, his⟩ := List.forall_mem_cons.1 h
      refine Ensures.bind (hi s) fun _ s₁ _ h₁ => (ih his s₁).mono fun _ s' _ h' => ?_
      rw [h', h₁, List.map_cons, copy_cons]

/-- A loop whose first step clears `up` before it writes. -/
theorem moveBytes_copies {get : Nat → Handler Reg (Option Expr)}
    {put : Nat → Option Expr → Handler Reg Unit} {src dst : Nat → Place Reg}
    {up : List (Place Reg)} (hn : 0 < n)
    (hget : ∀ i < n, ∀ s, Ensures (body σ) ok (get i) s fun x s' _ => s' = s ∧ x = T.peek s (src i))
    (hput : ∀ i < n, ∀ x s, Ensures (body σ) ok (put i x) s fun _ s' _ =>
      T.peek s' = Function.update (clear (T.peek s) (if i = 0 then up else [])) (dst i) x)
    (hup : src 0 ∉ up) (s : Shadow) :
    Ensures (body σ) ok (forEach (fun i => moveByte (get i) (put i)) (List.range n)) s fun _ s' _ =>
      T.peek s' = copy ((List.range n).map fun i => (dst i, src i)) (clear (T.peek s) up) := by
  obtain ⟨m, rfl⟩ := Nat.exists_eq_add_of_lt hn
  rw [Nat.zero_add, List.range_eq_range', List.range'_succ]
  refine Ensures.bind (moveByte_copies (g := fun v => clear v up) (hget 0 hn) (hput 0 hn) s)
    fun _ s₁ _ h₁ => ?_
  have hrest (i : Nat) (hi : i ∈ List.range' 1 m) (s : Shadow) :
      Ensures (body σ) ok (moveByte (get i) (put i)) s fun _ s' _ =>
        T.peek s' = Function.update (T.peek s) (dst i) (T.peek s (src i)) := by
    obtain ⟨hi₁, hi₂⟩ := List.mem_range'_1.1 hi
    have hmove := moveByte_copies (g := fun v => clear v (if i = 0 then up else []))
      (hget i (by omega)) (hput i (by omega)) s
    simpa only [if_neg (show i ≠ 0 by omega), clear_nil] using hmove
  refine (forEach_copies (p := fun i => (dst i, src i)) hrest s₁).mono fun _ s' _ h' => ?_
  rw [h', h₁, List.map_cons, copy_cons, clear_of_notMem hup]

section Loops

variable {dst src : Reg} {dstFrom srcFrom : Nat} {addr : Addr}

/-- What a register is written with, byte by byte. -/
theorem setExprToRegByte_step (hP : T.pin.Documented) {i : Nat} (hi : i < n)
    (hdst : (if T.pin.regIsUpper8 dst then 1 else 0) + (n + dstFrom) ≤
      T.pin.regSize (T.pin.regFullRegName dst)) (x : Option Expr) (s : Shadow) :
    Ensures (body σ) ok (T.setExprToRegByte dst x (i + dstFrom)) s fun _ s' _ =>
      T.peek s' = Function.update (clear (T.peek s)
        (if i = 0 then if dstFrom = 0 then T.upperPlaces dst else [] else []))
          (T.bytePlace dst (i + dstFrom)) x := by
  have hset : Ensures (body σ) ok (T.setExprToRegByte dst x (i + dstFrom)) s _ :=
    setExprToRegByte_stores hP x (by omega)
  have hupper : (if i + dstFrom = 0 then T.upperPlaces dst else []) =
      if i = 0 then if dstFrom = 0 then T.upperPlaces dst else [] else [] := by
    rw [← ite_and]
    congr 1
    exact propext Nat.add_eq_zero_iff
  rwa [hupper] at hset

/-- What memory is written with. -/
theorem setExprToMemByte_step (addr : Addr) (i : Nat) (_ : i < n) (x : Option Expr) (s : Shadow) :
    Ensures (body σ) ok (setExprToMemByte (addr + BitVec.ofNat 64 i) x : Handler Reg Unit) s
      fun _ s' _ => T.peek s' =
        Function.update (clear (T.peek s) (if i = 0 then [] else [])) (memPlace addr i) x := by
  rw [ite_self, clear_nil]
  exact setExprToMemByte_stores _ x

theorem doMovRegReg_copies (hP : T.pin.Documented) (hn : 0 < n)
    (hdst : (if T.pin.regIsUpper8 dst then 1 else 0) + (n + dstFrom) ≤
      T.pin.regSize (T.pin.regFullRegName dst))
    (hsrc : (if T.pin.regIsUpper8 src then 1 else 0) + (n + srcFrom) ≤
      T.pin.regSize (T.pin.regFullRegName src)) (hfrom : dstFrom = 0 → srcFrom = 0) (s : Shadow) :
    Ensures (body σ) ok (T.doMovRegReg dst src dstFrom srcFrom n) s fun _ s' _ =>
      T.peek s' = copy ((List.range n).map fun i =>
          (T.bytePlace dst (i + dstFrom), T.bytePlace src (i + srcFrom)))
        (clear (T.peek s) (if dstFrom = 0 then T.upperPlaces dst else [])) := by
  refine moveBytes_copies hn (fun i hi s => getExprFromRegByte_reads (by omega))
    (fun i hi x s => setExprToRegByte_step hP hi hdst x s) ?_ s
  split
  next h0 =>
      rw [hfrom h0]
      exact bytePlace_notMem_upper (by decide) fun _ => Nat.one_pos
  next => exact List.not_mem_nil

/-- Memory goes to a register. -/
theorem movMemToReg_copies (hP : T.pin.Documented) (hn : 0 < n)
    (hdst : (if T.pin.regIsUpper8 dst then 1 else 0) + (n + dstFrom) ≤
      T.pin.regSize (T.pin.regFullRegName dst)) (s : Shadow) :
    Ensures (body σ) ok (forEach (fun i =>
      moveByte (getExprFromMemByte (addr + BitVec.ofNat 64 i))
        fun e => T.setExprToRegByte dst e (i + dstFrom)) (List.range n)) s fun _ s' _ =>
      T.peek s' = copy ((List.range n).map
        fun i => (T.bytePlace dst (i + dstFrom), memPlace addr i))
        (clear (T.peek s) (if dstFrom = 0 then T.upperPlaces dst else [])) := by
  refine moveBytes_copies hn (fun i _ s => getExprFromMemByte_reads _)
    (fun i hi x s => setExprToRegByte_step hP hi hdst x s) ?_ s
  split
  next => exact memPlace_notMem_upper
  next => exact List.not_mem_nil

/-- A register goes to memory. -/
theorem movRegToMem_copies (hn : 0 < n)
    (hsrc : (if T.pin.regIsUpper8 src then 1 else 0) + (n + srcFrom) ≤
      T.pin.regSize (T.pin.regFullRegName src)) (s : Shadow) :
    Ensures (body σ) ok (forEach (fun i => moveByte (T.getExprFromRegByte src (i + srcFrom))
        fun e => setExprToMemByte (addr + BitVec.ofNat 64 i) e) (List.range n)) s fun _ s' _ =>
      T.peek s' = copy ((List.range n).map
        fun i => (memPlace addr i, T.bytePlace src (i + srcFrom)))
        (T.peek s) := by
  have hget (i : Nat) (hi : i < n) (s : Shadow) :
      Ensures (body σ) ok (T.getExprFromRegByte src (i + srcFrom)) s fun x s' _ =>
        s' = s ∧ x = T.peek s (T.bytePlace src (i + srcFrom)) :=
    getExprFromRegByte_reads (by omega)
  have hloop : Ensures (body σ) ok _ s _ := moveBytes_copies hn hget (setExprToMemByte_step addr)
    List.not_mem_nil s
  rwa [clear_nil] at hloop

/-- Memory goes to memory. -/
theorem movMemToMem_copies (hn : 0 < n) (dstAddr srcAddr : Addr) (s : Shadow) :
    Ensures (body σ) ok (forEach (fun i =>
      moveByte (getExprFromMemByte (srcAddr + BitVec.ofNat 64 i))
        fun e => setExprToMemByte (dstAddr + BitVec.ofNat 64 i) e) (List.range n) :
          Handler Reg Unit)
      s fun _ s' _ => T.peek s' = copy ((List.range n).map fun i =>
        (memPlace dstAddr i, memPlace srcAddr i)) (T.peek s) := by
  have hloop : Ensures (body σ) ok _ s _ := moveBytes_copies hn
    (fun i _ s => getExprFromMemByte_reads (T := T) (srcAddr + BitVec.ofNat 64 i))
    (setExprToMemByte_step (T := T) dstAddr) List.not_mem_nil s
  rwa [clear_nil] at hloop

end Loops

end Process

end Qsym
