import Qsym.Instrument.Result
import Qsym.Instrument.Undivided

/-!
# Qsym.Instrument.Moving

Loops that move bytes **return**. A byte of a register is read and written if the register has
cells, and one of memory is written if its page is mapped, which no step of such a loop changes.
And what they leave in the cells are bytes (`KeepsBytes`).
-/

namespace Qsym

open Procedure

namespace Process

open Handler Stateful

variable {Reg : Type} [DecidableEq Reg] {T : Process Reg} {σ : Session} {ok : MethodCall → Prop}
variable {s : Shadow} {r dst src : Reg} {addr : Addr} {n : Nat} {P : Shadow → Prop}

/-! ### One byte -/

theorem getExprFromRegByte_returns (hr : T.Tracked r) (off : Nat) :
    Achieves (body σ) ok (T.getExprFromRegByte r off) s fun _ s' _ => s' = s := by
  obtain ⟨addr, haddr⟩ := hr.exists_addr
  unfold getExprFromRegByte
  rw [haddr]
  exact Total.ret rfl

omit [DecidableEq Reg] in
theorem getExprFromMemByte_returns (addr : Addr) :
    Achieves (body σ) ok (getExprFromMemByte addr : Handler Reg _) s fun _ s' _ => s' = s :=
  Total.ret rfl

theorem setExprToRegByte_returns (hP : T.pin.Documented) (hr : T.Tracked r) (x : Option Expr)
    (off : Nat) : Achieves (body σ) ok (T.setExprToRegByte r x off) s
      fun _ s' _ => s'.memory = s.memory := by
  obtain ⟨addr, haddr⟩ := hr.exists_addr
  have hbyte (regs : RegExprs) : Builds σ ok (do
      let s ← RegExprs.cells.setExpr regs (addr + off) x
      return ((), s) : Build (Unit × RegExprs)) fun _ => True :=
    Total.bind (Cells.setExpr_returns (fun regs _ x => regs_poke regs _ x) trivial x)
      fun _ _ => .ret trivial
  have hset : Returns (body σ) ok (T.setExprToRegByte r x off) s := by
    refine onRegs_returns (P := fun _ => True) ?_
    rw [haddr]
    by_cases h0 : off = 0
    · simp only [if_pos h0]
      exact Total.bind (zeroExtend_builds hP hr) fun regs _ => hbyte regs
    · simp only [if_neg h0]
      exact hbyte s.regs
  refine hset.achieves ((onRegs_ensures (P := fun _ => True) fun _ _ _ _ _ => trivial).mono ?_)
  exact fun _ _ _ h => h.2.1

omit [DecidableEq Reg] in
theorem setExprToMemByte_returns {a : Addr} (hmapped : Mapped s.memory addr n)
    (ha : a ∈ Memory.addresses addr n) (x : Option Expr) :
    Achieves (body σ) ok (setExprToMemByte a x : Handler Reg Unit) s
      fun _ s' _ => Mapped s'.memory addr n := by
  have hset : Builds σ ok (s.memory.setByteToMem a x) (Mapped · addr n) :=
    Memory.cells.setExpr_returns (W := (Mapped · addr n)) (fun _ h x => h.poke ha x) hmapped x
  exact Total.bind (Total.bind hset fun _ h => .ret h) fun _ h => .ret h

/-! ### Loops -/

omit [DecidableEq Reg] in
theorem moveByte_returns {get : Handler Reg (Option Expr)} {put : Option Expr → Handler Reg Unit}
    (hget : Achieves (body σ) ok get s fun _ s' _ => s' = s)
    (hput : ∀ x, Achieves (body σ) ok (put x) s fun _ s' _ => P s') :
    Achieves (body σ) ok (moveByte get put) s fun _ s' _ => P s' := by
  refine hget.bind fun x s₁ _ hs₁ => ?_
  rw [hs₁]
  exact hput x

omit [DecidableEq Reg] in
/-- A loop keeps what each step keeps. -/
theorem forEach_returns {f : Nat → Handler Reg Unit} {is : List Nat}
    (h : ∀ i ∈ is, ∀ s, P s → Achieves (body σ) ok (f i) s fun _ s' _ => P s') (hs : P s) :
    Achieves (body σ) ok (forEach f is) s fun _ s' _ => P s' := by
  induction is generalizing s with
  | nil => exact .ret hs
  | cons i is ih =>
      refine (h i List.mem_cons_self s hs).bind fun _ s₁ _ h₁ => ?_
      exact ih (fun j hj => h j (List.mem_cons_of_mem i hj)) h₁

section Loops

variable {get : Nat → Handler Reg (Option Expr)}
  (hget : ∀ i s, Achieves (body σ) ok (get i) s fun _ s' _ => s' = s)
include hget

/-- Bytes go to a register. -/
theorem toReg_returns (hP : T.pin.Documented) (hdst : T.Tracked dst) (dstFrom : Nat)
    (is : List Nat) :
    Achieves (body σ) ok (forEach (fun i => moveByte (get i)
      fun e => T.setExprToRegByte dst e (i + dstFrom)) is) s
        fun _ s' _ => s'.memory = s.memory := by
  refine forEach_returns (P := fun s' => s'.memory = s.memory) (fun i _ s₁ h₁ => ?_) rfl
  refine moveByte_returns (hget i s₁) fun x => ?_
  exact (setExprToRegByte_returns hP hdst x _).mono fun _ _ _ h => h.trans h₁

omit [DecidableEq Reg] in
/-- Bytes go to memory. -/
theorem toMem_returns (hmapped : Mapped s.memory addr n) :
    Achieves (body σ) ok (forEach (fun i => moveByte (get i)
      fun e => setExprToMemByte (addr + BitVec.ofNat 64 i) e) (List.range n)) s
        fun _ s' _ => Mapped s'.memory addr n := by
  refine forEach_returns (P := fun s' => Mapped s'.memory addr n) (fun i hi s₁ h₁ => ?_) hmapped
  refine moveByte_returns (hget i s₁) fun x => setExprToMemByte_returns h₁ ?_ x
  exact List.mem_map_of_mem hi

end Loops

theorem doMovRegReg_returns (hP : T.pin.Documented) (hdst : T.Tracked dst) (hsrc : T.Tracked src)
    (dstFrom srcFrom size : Nat) :
    Achieves (body σ) ok (T.doMovRegReg dst src dstFrom srcFrom size) s
      fun _ s' _ => s'.memory = s.memory :=
  toReg_returns (fun _ _ => getExprFromRegByte_returns hsrc _) hP hdst dstFrom _

section Addressed

variable (hP : T.pin.Documented) (hb : T.builder = SymbolicExprBuilder.chain) (hs : s.WellFormed)
include hP hb hs

theorem doMovRegMem_returns {m : MemArg Reg} (hdst : T.Tracked dst) (hm : T.Addressed m)
    (dstFrom : Nat) : Returns (body σ) exactly (T.doMovRegMem dst m dstFrom) s := by
  refine Returns.bind (makeAddrConcrete_returns hP hb hs hm) (P := fun _ _ _ => True)
    (fun _ _ _ _ _ => trivial) fun _ s₁ _ _ => ?_
  exact (toReg_returns (fun _ _ => getExprFromMemByte_returns _) hP hdst dstFrom _).returns

theorem doMovMemReg_returns {m : MemArg Reg} (hsrc : T.Tracked src) (hm : T.Addressed m)
    (hmapped : Mapped s.memory m.addr m.size) (srcFrom : Nat) :
    Returns (body σ) exactly (T.doMovMemReg m src srcFrom) s := by
  refine Returns.bind (makeAddrConcrete_returns hP hb hs hm) (T.makeAddrConcrete_keepsMemory m s)
    fun _ s₁ _ h₁ => ?_
  exact (toMem_returns (fun _ _ => getExprFromRegByte_returns hsrc _) (h₁ ▸ hmapped)).returns

end Addressed

/-! ### Cells that hold bytes -/

/-- What runs store are bytes. -/
def KeepsBytes (σ : Session) (ok : MethodCall → Prop) {α : Type} (p : Handler Reg α) : Prop :=
  ∀ s : Shadow, s.WellFormed → Ensures (body σ) ok p s fun _ s' _ => s'.WellFormed

/-- An expression of a byte, if there is one. -/
abbrev OptByte (x : Option Expr) : Prop :=
  ∀ e, x = some e → e.Trimmed ∧ e.IsBV 8

/-- `p` gives an expression of a byte, if any, and changes nothing. -/
def GivesByte (σ : Session) (ok : MethodCall → Prop) (p : Handler Reg (Option Expr)) : Prop :=
  ∀ s : Shadow, s.WellFormed → Ensures (body σ) ok p s fun x s' _ => s' = s ∧ OptByte x

theorem getExprFromRegByte_givesByte (r : Reg) (off : Nat) :
    GivesByte σ ok (T.getExprFromRegByte r off) := by
  intro s hs
  unfold getExprFromRegByte
  cases T.pin.regToRegAddr r with
  | none => exact Yields.stop
  | some addr => exact Yields.ret ⟨rfl, hs.regs (addr + off)⟩

omit [DecidableEq Reg] in
theorem getExprFromMemByte_givesByte (addr : Addr) :
    GivesByte σ ok (getExprFromMemByte addr : Handler Reg _) :=
  fun _ hs => Yields.ret ⟨rfl, hs.memory addr⟩

/-- Whatever holds of what is stored and of the cells goes on to hold. -/
theorem setExprToRegByte_stays (T : Process Reg) {reads : Nat → Prop} {P : Expr → Prop}
    {x : Option Expr} (r : Reg) (off : Nat) {regs : RegExprs}
    (hregs : RegExprs.cells.All P regs) (hx : ∀ e, x = some e → P e) :
    Build.Stays reads False (do
      let s ← if off = 0 then T.pin.zeroExtend regs r else .ret regs
      match T.pin.regToRegAddr r with
      | none => .stop
      | some addr =>
          let s ← RegExprs.cells.setExpr s (addr + off) x
          return ((), s)) fun y => RegExprs.cells.All P y.2 := by
  have hput (regs : RegExprs) (hregs : RegExprs.cells.All P regs) : Build.Stays reads False
      (match T.pin.regToRegAddr r with
      | none => .stop
      | some addr => do
          let s ← RegExprs.cells.setExpr regs (addr + off) x
          return ((), s)) fun y => RegExprs.cells.All P y.2 := by
    split
    · trivial
    · exact (hregs.setExpr _ hx).bind fun _ h => Build.stays_ret.2 h
  dsimp only
  split
  · exact (Pin.zeroExtend_stays Cells.all_closed hregs r).bind fun regs' hregs' => hput regs' hregs'
  · exact hput regs hregs

theorem setExprToRegByte_keepsBytes (r : Reg) (off : Nat) {x : Option Expr} (hx : OptByte x) :
    KeepsBytes σ ok (T.setExprToRegByte r x off) := by
  intro s hs
  have hstays : Build.Stays (fun _ => True) False _ _ := T.setExprToRegByte_stays r off hs.regs hx
  refine (onRegs_ensures fun _ _ _ _ hr => hstays.result hr).mono ?_
  exact fun _ s' _ ⟨_, hm, _, hregs⟩ => ⟨hregs, hm ▸ hs.memory⟩

omit [DecidableEq Reg] in
theorem setExprToMemByte_keepsBytes (addr : Addr) {x : Option Expr} (hx : OptByte x) :
    KeepsBytes σ ok (setExprToMemByte addr x : Handler Reg Unit) := by
  intro s hs
  have hstays : Build.Stays (fun _ => True) False (Memory.cells.setExpr s.memory addr x) _ :=
    Cells.All.setExpr hs.memory addr hx
  refine (onMemory_unit (f := fun mem => mem.setByteToMem addr x)
    fun _ _ _ _ hr => hstays.result hr).mono ?_
  exact fun _ s' _ ⟨_, hr, _, hmem⟩ => ⟨hr ▸ hs.regs, hmem⟩

omit [DecidableEq Reg] in
theorem moveBytes_keepsBytes {get : Nat → Handler Reg (Option Expr)}
    {put : Nat → Option Expr → Handler Reg Unit} (hget : ∀ i, GivesByte σ ok (get i))
    (hput : ∀ i x, OptByte x → KeepsBytes σ ok (put i x)) (is : List Nat) :
    KeepsBytes σ ok (forEach (fun i => moveByte (get i) (put i)) is) := by
  induction is with
  | nil => exact fun _ hs => .ret hs
  | cons i is ih =>
      intro s hs
      have hmove : Ensures (body σ) ok (moveByte (get i) (put i)) s fun _ s' _ => s'.WellFormed :=
        Ensures.bind (hget i s hs) fun x _ _ ⟨hs₁, hx⟩ => hput i x hx _ (hs₁ ▸ hs)
      exact Ensures.bind hmove fun _ s' _ hs' => ih s' hs'

/-- A register that gets no expression. -/
theorem setExprToReg_none_keepsBytes (r : Reg) : KeepsBytes σ ok (T.setExprToReg r none) := by
  intro s hs
  have hstays : Build.Stays (fun _ => True) False (T.pin.setExprToReg T.builder s.regs r none) _ :=
    Pin.setExprToReg_none_stays Cells.all_closed hs.regs r
  refine (onRegs_unit (f := fun s => T.pin.setExprToReg T.builder s r none) fun _ _ _ _ hr =>
    hstays.result hr).mono ?_
  exact fun _ s' _ ⟨_, hm, _, hregs⟩ => ⟨hregs, hm ▸ hs.memory⟩

end Process

end Qsym
