import Qsym.Instrument.Settled

/-!
# Qsym.Instrument.Frame

What parts of handlers leave alone. A part is **silent** if it makes no request, whatever
the shadow (`Silent`), and **keeps** the shadow if it makes no request and changes nothing
(`Keeps`).
-/

namespace Qsym

open Procedure

namespace Handler

open Stateful

variable {Reg α β : Type} (σ : Session) (ok : MethodCall → Prop)

/-- No run makes a request. -/
def Silent (p : Handler Reg α) : Prop :=
  ∀ s, Ensures (body σ) ok p s fun _ _ l => l = []

/-- No run makes a request or changes the shadow. -/
def Keeps (p : Handler Reg α) : Prop :=
  ∀ s, Ensures (body σ) ok p s fun _ s' l => s' = s ∧ l = []

variable {σ ok} {p : Handler Reg α} {f : α → Handler Reg β}

namespace Silent

theorem ret (a : α) : Silent σ ok (pure a : Handler Reg α) :=
  fun _ => .ret rfl

theorem bind (hp : Silent σ ok p) (hf : ∀ a, Silent σ ok (f a)) : Silent σ ok (p >>= f) := by
  refine fun s => (hp s).bind ?_
  rintro a s' _ rfl
  exact hf a s'

theorem lift (q : Build α) : Silent σ ok (Stateful.lift q : Handler Reg α) :=
  fun _ => Ensures.lift (P := fun _ => True) (fun _ _ _ _ _ => trivial) fun _ _ => rfl

theorem onRegs (g : RegExprs → Build (α × RegExprs)) :
    Silent σ ok (onRegs g : Handler Reg α) :=
  fun _ => Yields.bind (P := fun _ => True) (fun _ _ _ _ _ => trivial) fun _ _ => .ret rfl

theorem onMemory (g : Memory → Build (α × Memory)) :
    Silent σ ok (onMemory g : Handler Reg α) :=
  fun _ => Yields.bind (P := fun _ => True) (fun _ _ _ _ _ => trivial) fun _ _ => .ret rfl

theorem onEflags (g : Eflags → Eflags) : Silent σ ok (onEflags g : Handler Reg Unit) :=
  fun _ => Yields.ret rfl

end Silent

namespace Keeps

theorem ret (a : α) : Keeps σ ok (pure a : Handler Reg α) :=
  fun _ => .ret ⟨rfl, rfl⟩

theorem stop : Keeps σ ok (Stateful.stop : Handler Reg α) :=
  fun _ => .stop

theorem lift (q : Build α) : Keeps σ ok (Stateful.lift q : Handler Reg α) :=
  fun _ => Ensures.lift (P := fun _ => True) (fun _ _ _ _ _ => trivial) fun _ _ => ⟨rfl, rfl⟩

end Keeps

theorem getOpKindBinary_keeps (kind : BinaryKind) :
    Keeps σ ok (getOpKindBinary kind : Handler Reg OpKind) := by
  unfold getOpKindBinary
  split <;> first | exact .ret _ | exact .stop

end Handler

namespace Process

open Handler Stateful

variable {Reg : Type} (T : Process Reg) {σ : Session} {ok : MethodCall → Prop}

theorem computeJcc_keeps (jcc : JccKind) (inv : Bool) :
    Keeps σ ok (T.computeJcc jcc inv : Handler Reg _) :=
  fun _ => Ensures.bind (Ensures.get (P := fun _ s' l => s' = _ ∧ l = []) ⟨rfl, rfl⟩) (by
    rintro s₁ _ _ ⟨rfl, rfl⟩
    exact Keeps.lift _ _)

/-! ### Writes -/

section Writes

open RegExprs (cells)

variable {T} [DecidableEq Reg] {s : Shadow} {r : Reg} {base off : Nat}

omit [DecidableEq Reg] in
/-- The cells written with a register are a range. -/
theorem mem_writtenCells_iff (hP : T.pin.Documented) {a : Nat} :
    a ∈ T.pin.writtenCells r base ↔
      a ∈ Pin.regAddresses (base + ((if T.pin.regIsUpper8 r then 1 else 0) + 0)) (T.extent r) := by
  rw [Pin.writtenCells, extent]
  by_cases h32 : T.pin.regIsGr32 r = true
  · obtain ⟨h4, h8⟩ := hP.gr32 r h32
    simp only [h32, hP.not_upper8_of_gr32 h32, h4, h8, Pin.regAddresses, List.mem_append,
      List.mem_range'_1, Bool.false_eq_true, if_true, if_false]
    omega
  · simp only [h32, Bool.false_eq_true, if_false, List.nil_append]
    rfl

theorem setExprToReg_written (hP : T.pin.Documented) (r : Reg) (x : Option Expr) :
    Ensures (body σ) ok (T.setExprToReg r x) s fun _ s' l => l = [] ∧ s'.eflags = s.eflags ∧
      T.Written s (· ∈ (Operand.reg r).dropped T) x s' := by
  refine (onRegs_unit (f := fun s => T.pin.setExprToReg T.builder s r x)
    (Pin.setExprToReg_cells hP T.builder s.regs r x)).mono ?_
  rintro _ s' l ⟨rfl, hm, he, base, hbase, hs'⟩
  rw [dropped_reg hP]
  refine ⟨rfl, he, written_of_cells hbase (extent_le hP r) hm ⟨fun a ha => ?_, fun hx a => ?_⟩⟩
  · exact hs'.1 a fun ha' => ha ((mem_writtenCells_iff hP).1 ha')
  · rw [← mem_writtenCells_iff hP]
    exact hs'.2 hx a

theorem setExprToMem_written (addr : Addr) (size : Nat) (x : Option Expr) :
    Ensures (body σ) ok (T.setExprToMem addr size x) s fun _ s' l => l = [] ∧
      s'.eflags = s.eflags ∧ T.Written s (· ∈ (Operand.mem addr size).places T) x s' := by
  refine (onMemory_unit (f := fun mem => mem.setExprToMem T.builder addr size x)
    (Memory.cells.setExprs_state T.builder s.memory (Memory.addresses addr size) x)).mono ?_
  rintro _ s' l ⟨rfl, hr, he, hs'⟩
  refine ⟨rfl, he, fun hx k hk => ?_, fun k hk => ?_⟩
  · obtain ⟨a, rfl, ha⟩ := mem_places_mem.1 hk
    exact (hs'.2 hx a).1 ha
  · cases k with
    | reg f i => simp only [peek, hr]
    | mem a => exact hs'.1 a fun ha => hk (mem_places_mem.2 ⟨a, rfl, ha⟩)

end Writes

end Process

end Qsym
