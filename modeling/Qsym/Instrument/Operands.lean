import Qsym.Flags.Recorded
import Qsym.Instrument.Frame

/-!
# Qsym.Instrument.Operands

Handlers as what they do to the flags and to the memory. Getting operands and putting
results keeps the flags (`KeepsEflags`), so what a handler does to them is decided between
the two.
-/

namespace Qsym

open Procedure

namespace Handler

open Stateful

variable {Reg α β : Type} (σ : Session) (ok : MethodCall → Prop)

/-- No run changes the flags. -/
def KeepsEflags (p : Handler Reg α) : Prop :=
  ∀ s, Ensures (body σ) ok p s fun _ s' _ => s'.eflags = s.eflags

/-- No run changes the memory. -/
def KeepsMemory (p : Handler Reg α) : Prop :=
  ∀ s, Ensures (body σ) ok p s fun _ s' _ => s'.memory = s.memory

variable {σ ok} {p : Handler Reg α} {f : α → Handler Reg β}

namespace KeepsEflags

theorem ret (a : α) : KeepsEflags σ ok (pure a : Handler Reg α) :=
  fun _ => .ret rfl

theorem bind (hp : KeepsEflags σ ok p) (hf : ∀ a, KeepsEflags σ ok (f a)) :
    KeepsEflags σ ok (p >>= f) := by
  intro s
  refine (hp s).bind fun a s₁ _ h₁ => (hf a s₁).mono fun _ s' _ h' => ?_
  exact h'.trans h₁

theorem of_keeps (h : Keeps σ ok p) : KeepsEflags σ ok p :=
  fun s => (h s).mono fun _ _ _ h => by rw [h.1]

theorem lift (q : Build α) : KeepsEflags σ ok (Stateful.lift q : Handler Reg α) :=
  of_keeps (.lift q)

theorem onRegs (g : RegExprs → Build (α × RegExprs)) :
    KeepsEflags σ ok (onRegs g : Handler Reg α) :=
  fun _ => Yields.bind (P := fun _ => True) (fun _ _ _ _ _ => trivial) fun _ _ => .ret rfl

theorem onMemory (g : Memory → Build (α × Memory)) :
    KeepsEflags σ ok (onMemory g : Handler Reg α) :=
  fun _ => Yields.bind (P := fun _ => True) (fun _ _ _ _ _ => trivial) fun _ _ => .ret rfl

theorem request (q : Request Reg) : KeepsEflags σ ok (request q) :=
  fun _ => Ensures.tell rfl

end KeepsEflags

namespace KeepsMemory

theorem ret (a : α) : KeepsMemory σ ok (pure a : Handler Reg α) :=
  fun _ => .ret rfl

theorem bind (hp : KeepsMemory σ ok p) (hf : ∀ a, KeepsMemory σ ok (f a)) :
    KeepsMemory σ ok (p >>= f) := by
  intro s
  refine (hp s).bind fun a s₁ _ h₁ => (hf a s₁).mono fun _ s' _ h' => ?_
  exact h'.trans h₁

theorem lift (q : Build α) : KeepsMemory σ ok (Stateful.lift q : Handler Reg α) :=
  fun _ => Ensures.lift (P := fun _ => True) (fun _ _ _ _ _ => trivial) fun _ _ => rfl

theorem onRegs (g : RegExprs → Build (α × RegExprs)) :
    KeepsMemory σ ok (onRegs g : Handler Reg α) :=
  fun _ => Yields.bind (P := fun _ => True) (fun _ _ _ _ _ => trivial) fun _ _ => .ret rfl

theorem request (q : Request Reg) : KeepsMemory σ ok (request q) :=
  fun _ => Ensures.tell rfl

end KeepsMemory

end Handler

/-! ### Operands and results -/

namespace Process

open Handler Stateful

variable {Reg : Type} [DecidableEq Reg] (T : Process Reg) {σ : Session} {ok : MethodCall → Prop}

theorem getExprFromReg_keepsEflags (r : Reg) : KeepsEflags σ ok (T.getExprFromReg r) :=
  .onRegs _

theorem getExprFromReg_keepsMemory (r : Reg) : KeepsMemory σ ok (T.getExprFromReg r) :=
  .onRegs _

theorem setExprToReg_keepsEflags (r : Reg) (x : Option Expr) :
    KeepsEflags σ ok (T.setExprToReg r x) :=
  .onRegs _

omit [DecidableEq Reg] in
theorem setExprToMem_keepsEflags (addr : Addr) (size : Nat) (x : Option Expr) :
    KeepsEflags σ ok (T.setExprToMem addr size x) :=
  .onMemory _

theorem makeAddrConcrete_keepsEflags (m : MemArg Reg) :
    KeepsEflags σ ok (T.makeAddrConcrete m) := by
  have hreg (r : Reg) : KeepsEflags σ ok (T.getExprFromAddrReg r) := by
    unfold getExprFromAddrReg
    split
    · exact T.getExprFromReg_keepsEflags r
    · exact .ret _
  have haddr : KeepsEflags σ ok (T.getAddrExpr m.base m.index m.disp m.scale) :=
    (hreg _).bind fun _ => (hreg _).bind fun _ => .lift _
  refine haddr.bind fun x => ?_
  cases x with
  | none => exact .ret _
  | some e => exact .request _

theorem makeAddrConcrete_keepsMemory (m : MemArg Reg) :
    KeepsMemory σ ok (T.makeAddrConcrete m) := by
  have hreg (r : Reg) : KeepsMemory σ ok (T.getExprFromAddrReg r) := by
    unfold getExprFromAddrReg
    split
    · exact T.getExprFromReg_keepsMemory r
    · exact .ret _
  have haddr : KeepsMemory σ ok (T.getAddrExpr m.base m.index m.disp m.scale) :=
    (hreg _).bind fun _ => (hreg _).bind fun _ => .lift _
  refine haddr.bind fun x => ?_
  cases x with
  | none => exact .ret ()
  | some e => exact .request _

theorem concretizeReg_keepsMemory (r : Reg) : KeepsMemory σ ok (T.concretizeReg r) := by
  have hclear : KeepsMemory σ ok (T.clearExprFromRegPart r 0 none) := .onRegs _
  refine (T.getExprFromReg_keepsMemory r).bind fun x => ?_
  cases x with
  | none => exact .ret ()
  | some e => exact KeepsMemory.bind (.request _) fun _ => hclear

end Process

end Qsym
