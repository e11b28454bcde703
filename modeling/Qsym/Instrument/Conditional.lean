import Qsym.Instrument.ByteMove
import Qsym.Instrument.Carry

/-!
# Qsym.Instrument.Conditional

`SETcc` and `CMOVcc`, which depend on a condition. Where the condition can be made of the
flags, `SETcc` leaves it as a byte, and `CMOVcc` asks the solver for it, as a jump does, and
then moves what the process moves. Where the flags are those of the machine there is nothing
to ask, and `SETcc` lets go of its destination.
-/

namespace Qsym

open Procedure X86
open SymbolicExprBuilder (chain)

/-- The flags were left by operations of the machine, and the condition can be made of them: for
the input `ρ` it is `c ρ`. -/
def Decided (e : Eflags) (jcc : JccKind) (c : Input → Bool) : Prop :=
  ∃ h, e = FlagHistory.eflags h ∧ e.isValid jcc = true ∧ FlagHistory.Answerable h jcc ∧
    ∀ ρ, ∃ ops, FlagHistory.Performed ρ h ops ∧ jcc.holds (lastFlag ops) = some (c ρ)

/-- What `computeJcc` answers: the condition, or nothing if the flags are not known. -/
def AnswersJcc (e : Eflags) (jcc : JccKind) (inv : Bool) (c : Input → Bool) (x : Option Expr) :
    Prop :=
  match x with
  | some b => Decides (fun _ => True) (fun ρ => c ρ != inv) b
  | none => e.isValid jcc = false

theorem computeJcc_answers {σ : Session} {ok : MethodCall → Prop} {e : Eflags} {jcc : JccKind}
    {c : Input → Bool} (h : e.isValid jcc = false ∨ Decided e jcc c) (inv : Bool) :
    Builds σ ok (e.computeJcc chain jcc inv) (AnswersJcc e jcc inv c) := by
  refine Total.of_true ?_
  rcases h with hforgotten | ⟨h, rfl, hvalid, hanswerable, hops⟩
  · rw [Eflags.computeJcc, hforgotten]
    exact .ret hforgotten
  · have hwith (ρ : Input) :
        Builds σ anyCall ((FlagHistory.eflags h).computeJcc chain jcc inv)
          (Says (· = ρ) fun _ => c ρ != inv) := by
      obtain ⟨ops, hperformed, hholds⟩ := hops ρ
      obtain ⟨b, hb, hbuilds⟩ := FlagHistory.computeJcc_builds
        (chain_soundSimply σ (· = ρ)) hperformed hvalid inv hanswerable
      obtain rfl := Option.some.inj (hholds.symm.trans hb)
      exact hbuilds
    -- the expression is the same for every input
    have hall := Yields.forall_intro fun ρ => Yields.of_total (hwith ρ)
    refine (Total.yields (hwith fun _ => 0) hall).mono ?_
    rintro _ ⟨⟨b, rfl, hb⟩, hsaid⟩
    refine ⟨hb.isBool, fun ρ _ => ?_⟩
    obtain ⟨_, hx, hb'⟩ := hsaid ρ
    obtain rfl := Option.some.inj hx
    exact hb'.truth ρ rfl

namespace Process

open Handler Stateful

variable {Reg : Type} [DecidableEq Reg] {T : Process Reg} {σ : Session} {ok : MethodCall → Prop}
variable {s : Shadow} {jcc : JccKind} {c : Input → Bool}

/-! ### The condition -/

omit [DecidableEq Reg] in
theorem getCondition_answers (hb : T.builder = chain)
    (h : s.eflags.isValid jcc = false ∨ Decided s.eflags jcc c) (inv : Bool) :
    Achieves (body σ) ok (T.computeJcc jcc inv) s fun x s' l =>
      s' = s ∧ l = [] ∧ AnswersJcc s.eflags jcc inv c x := by
  have hget : Achieves (body σ) ok (Stateful.get : Handler Reg Shadow) s fun x s' l =>
      x = s ∧ s' = s ∧ l = [] := Total.ret ⟨rfl, rfl, rfl⟩
  refine hget.bind fun x s₁ l ⟨hx, hs₁, hl⟩ => ?_
  rw [hx, hs₁, hl, hb]
  exact Achieves.lift (computeJcc_answers h inv) fun _ hx => ⟨rfl, rfl, hx⟩

/-- What a conditional instruction asks the solver: its condition, or nothing if the flags are
not known. -/
def Asks (T : Process Reg) (e : Eflags) (jcc : JccKind) (inv taken : Bool) (c : Input → Bool)
    (l : List (Request Reg)) : Prop :=
  (e.isValid jcc = false ∧ l = []) ∨
    ∃ b, l = [.addJcc b taken (T.getRegValue T.pin.regInstPtr)] ∧
      Decides (fun _ => True) (fun ρ => c ρ != inv) b

omit [DecidableEq Reg] in
theorem instrumentJcc_asks (hb : T.builder = chain)
    (h : s.eflags.isValid jcc = false ∨ Decided s.eflags jcc c) (taken : Bool) (target : Addr)
    (inv : Bool) :
    Achieves (body σ) ok (T.instrumentJcc taken target jcc inv) s fun _ s' l =>
      s' = s ∧ Asks T s.eflags jcc inv taken c l := by
  refine (getCondition_answers hb h inv).bind fun x s₁ l ⟨hs₁, hl, hx⟩ => ?_
  rw [hs₁, hl]
  cases x with
  | none => exact .ret ⟨rfl, .inl ⟨hx, rfl⟩⟩
  | some b => exact Total.ret ⟨rfl, .inr ⟨b, rfl, hx⟩⟩

end Process

/-! ### `CMOVcc` -/

/-- The operands of `CMOVcc`. -/
inductive CmovForm (Reg : Type)
  | regReg (dst src : Reg)
  | regMem (dst : Reg) (m : MemArg Reg)

namespace CmovForm

variable {Reg : Type} [DecidableEq Reg] (T : Process Reg)

def handler (taken : Bool) (jcc : JccKind) (inv : Bool) : CmovForm Reg → Handler Reg Unit
  | regReg dst src => T.instrumentCmovRegReg taken dst src jcc inv
  | regMem dst m => T.instrumentCmovRegMem taken dst m jcc inv

omit [DecidableEq Reg] in
/-- The move that is made if the condition holds. -/
def move : CmovForm Reg → MoveForm Reg
  | regReg dst src => .movRegReg dst src
  | regMem dst m => .movRegMem dst m

theorem handler_eq (form : CmovForm Reg) (taken : Bool) (jcc : JccKind) (inv : Bool) :
    form.handler T taken jcc inv = (do
      T.instrumentJcc taken 0 jcc inv
      if taken then form.move.handler T) := by
  cases form <;> rfl

end CmovForm

namespace Process

open Handler Stateful

variable {Reg : Type} [DecidableEq Reg] {T : Process Reg} {σ : Session} {s : Shadow}
variable {jcc : JccKind} {c : Input → Bool}

/-- **`CMOVcc`.** The handler asks the solver for the condition, before anything else, and moves as
`MOV` does if the process moves; otherwise it changes nothing. -/
theorem instrumentCmov_moves (hP : T.pin.Documented) (hN : T.pin.Named) (hb : T.builder = chain)
    (hs : s.WellFormed) (form : CmovForm Reg) (hsize : form.move.Sized T)
    (haccess : form.move.Accessible T s)
    (hflags : s.eflags.isValid jcc = false ∨ Decided s.eflags jcc c) (taken inv : Bool) :
    Achieves (body σ) exactly (form.handler T taken jcc inv) s fun _ s' l =>
      ∃ asked rest, l = asked ++ rest ∧ Asks T s.eflags jcc inv taken c asked ∧
        if taken then form.move.Copies T (T.peek s) (T.peek s') else s' = s ∧ rest = [] := by
  have hover : ¬ form.move.Overlaps := by cases form <;> exact id
  rw [form.handler_eq]
  refine (instrumentJcc_asks hb hflags taken 0 inv).bind fun _ s₁ asked ⟨hs₁, hasks⟩ => ?_
  rw [hs₁]
  cases taken with
  | false => exact .ret ⟨asked, [], rfl, hasks, rfl, rfl⟩
  | true =>
      have hmoves : Achieves (body σ) _ (form.move.handler T) s _ :=
        (MoveForm.handler_moves hP hN hb hs hsize haccess hover).2
      refine (hmoves.weaken fun _ h _ => h).mono fun _ s' l hcopies => ?_
      exact ⟨asked, l, rfl, hasks, hcopies⟩

end Process

/-! ### `SETcc` -/

/-- The destination of `SETcc`, of one byte. -/
inductive SetForm (Reg : Type)
  | reg (dst : Reg)
  | mem (m : MemArg Reg)

namespace SetForm

variable {Reg : Type} [DecidableEq Reg] (T : Process Reg)

def handler (jcc : JccKind) (inv : Bool) : SetForm Reg → Handler Reg Unit
  | reg dst => T.instrumentSetReg dst jcc inv
  | mem m => T.instrumentSetMem m jcc inv

omit [DecidableEq Reg] in
def dst : SetForm Reg → Place Reg
  | reg dst => T.bytePlace dst 0
  | mem m => .mem m.addr

/-- The destination can be written. -/
def Ready (s : Shadow) : SetForm Reg → Prop
  | reg dst => T.Tracked dst ∧ T.pin.regSize dst = 1
  | mem m => T.Addressed m ∧ Process.Mapped s.memory m.addr 1

end SetForm

namespace Process

open Handler Stateful

variable {Reg : Type} [DecidableEq Reg] {T : Process Reg} {σ : Session} {ok : MethodCall → Prop}
variable {s : Shadow} {jcc : JccKind} {c : Input → Bool} {inv : Bool}

/-- The byte that `SETcc` leaves: the condition, or nothing if the flags are not known. -/
def SetTo (e : Eflags) (jcc : JccKind) (inv : Bool) (c : Input → Bool) (x : Option Expr) : Prop :=
  match x with
  | some b => b.IsBV 8 ∧ ∀ ρ, b.value ρ = (c ρ != inv).toNat
  | none => e.isValid jcc = false

omit [DecidableEq Reg] in
theorem doSet_sets (hb : T.builder = chain)
    (h : s.eflags.isValid jcc = false ∨ Decided s.eflags jcc c) :
    Achieves (body σ) ok (T.doSet jcc inv) s fun x s' _ => s' = s ∧ SetTo s.eflags jcc inv c x := by
  refine (getCondition_answers hb h inv).bind fun x s₁ l ⟨hs₁, hl, hx⟩ => ?_
  rw [hs₁]
  cases x with
  | none => exact .ret ⟨rfl, hx⟩
  | some b =>
      have hbit : Builds σ ok (T.builder.boolToBit b 8) _ :=
        hb ▸ Total.of_true (boolToBit_builds (n := 8) (chain_soundSimply σ _) (by decide) hx)
      refine Achieves.lift_bind hbit fun e he => .ret ⟨rfl, he.isBV, fun ρ => ?_⟩
      rw [← he.isBV.toNat_bv, he.bv ρ trivial]
      cases c ρ != inv <;> rfl

/-- One byte is assigned, and the flags are left alone. -/
def SetsByte (T : Process Reg) (s s' : Shadow) (k : Place Reg) (x : Option Expr) : Prop :=
  s'.eflags = s.eflags ∧ T.peek s' = Function.update (T.peek s) k x

/-- A register of one byte is written as its lowest byte is. -/
theorem setExprToReg_eq_byte {r : Reg} (hsize : T.pin.regSize r = 1) (x : Option Expr) :
    T.setExprToReg r x = T.setExprToRegByte r x 0 := by
  unfold setExprToReg setExprToRegByte
  congr 1
  funext regs
  simp only [Pin.setExprToReg, hsize, if_pos, Program.bind_eq, Program.bind_assoc]
  cases T.pin.regToRegAddr r <;> rfl

theorem setExprToReg_setsByte (hP : T.pin.Documented) {r : Reg} (hr : T.Tracked r)
    (hsize : T.pin.regSize r = 1) (x : Option Expr) :
    Achieves (body σ) ok (T.setExprToReg r x) s fun _ s' _ =>
      T.SetsByte s s' (T.bytePlace r 0) x := by
  have hfits := hP.view_le r
  rw [hsize] at hfits
  have hupper : T.upperPlaces r = [] := by
    refine if_neg fun h32 => ?_
    have := (hP.gr32 r h32).1
    omega
  have heflags : Ensures (body σ) ok (T.setExprToReg r x) s _ := T.setExprToReg_keepsEflags r x s
  rw [setExprToReg_eq_byte hsize] at heflags ⊢
  refine (setExprToRegByte_returns hP hr x 0).returns.achieves
    ((heflags.and (setExprToRegByte_stores hP x hfits)).mono fun _ s' _ ⟨heq, h⟩ => ⟨heq, ?_⟩)
  rw [h, if_pos rfl, hupper, clear_nil]

theorem setExprToMemByte_setsByte {addr : Addr} (hmapped : Mapped s.memory addr 1)
    (x : Option Expr) :
    Achieves (body σ) ok (setExprToMemByte addr x : Handler Reg Unit) s fun _ s' _ =>
      T.SetsByte s s' (.mem addr) x := by
  have hmem : addr ∈ Memory.addresses addr 1 := by simp [Memory.addresses]
  exact (setExprToMemByte_returns hmapped hmem x).returns.achieves
    (Ensures.and (KeepsEflags.onMemory _ s) (setExprToMemByte_stores addr x))

section Handlers

variable (hP : T.pin.Documented) (hb : T.builder = chain)
include hP hb

/-- **`SETcc`.** The destination is assigned the condition as a byte, or nothing if the flags are
not known, and the flags are left alone. -/
theorem instrumentSet_sets (hs : s.WellFormed) (form : SetForm Reg) (hready : form.Ready T s)
    (hflags : s.eflags.isValid jcc = false ∨ Decided s.eflags jcc c) :
    Achieves (body σ) exactly (form.handler T jcc inv) s fun _ s' _ =>
      ∃ s₁ x, T.Aged s s₁ ∧ SetTo s.eflags jcc inv c x ∧ T.SetsByte s₁ s' (form.dst T) x := by
  cases form with
  | reg dst =>
      refine (doSet_sets hb hflags).bind fun x s₁ _ ⟨hs₁, hx⟩ => ?_
      rw [hs₁]
      exact (setExprToReg_setsByte hP hready.1 hready.2 x).mono fun _ s' _ h =>
        ⟨s, x, .refl hs, hx, h⟩
  | mem m =>
      obtain ⟨haddressed, hmapped⟩ := hready
      refine ((makeAddrConcrete_returns hP hb hs haddressed).achieves
        (makeAddrConcrete_aged hP hb hs m)).bind fun _ s₁ _ h₁ => ?_
      have hflags₁ : s₁.eflags.isValid jcc = false ∨ Decided s₁.eflags jcc c := by
        rw [h₁.eflags]
        exact hflags
      refine (doSet_sets hb hflags₁).bind fun x s₂ _ ⟨hs₂, hx⟩ => ?_
      rw [hs₂]
      rw [h₁.eflags] at hx
      exact (setExprToMemByte_setsByte (hmapped.of_samePages h₁.pages) x).mono fun _ s' _ h =>
        ⟨s₁, x, h₁, hx, h⟩

end Handlers

end Process

end Qsym
