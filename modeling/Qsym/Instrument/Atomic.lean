import Qsym.Flags.Recorded
import Qsym.Instrument.ByteMove
import Qsym.Instrument.Result

/-!
# Qsym.Instrument.Atomic

`XADD` and `CMPXCHG`. `XADD` writes the sum first and the old destination then, which is the
wrong one of the two if both operands are one register, and it leaves the flags of whatever
came before. `CMPXCHG` moves bytes by what the process has in the accumulator and in the
destination; the form with a register compares them the other way round, so that the flags
are those of the difference only if it is zero.
-/

namespace Qsym

open Procedure X86

/-! ### The flags of an operation -/

/-- A jump that is told about a flag of the operation is told its value. -/
def Told (σ : Session) (ρ : Input) (op : Operation) (e : Eflags) : Prop :=
  ∀ f v, op.flag f = some v → e.Tells σ ρ f v

/-- The flags of the operation are known with their values. -/
def Recorded (σ : Session) (ρ : Input) (op : Operation) (e : Eflags) : Prop :=
  ∀ f v, op.flag f = some v → e.Reports σ ρ f v

section Flags

variable {σ : Session} {ρ : Input} {n : Nat} {e : Eflags}

theorem Performs.recorded {fs : FlagSet} {op : Operation} (h : Performs ρ fs op) (e : Eflags) :
    Recorded σ ρ op (e.set fs.kind fs.result fs.dst fs.src) :=
  fun _ _ hf => h.reports hf e

/-- The flags of the opposite difference are those of the difference if it is zero. -/
theorem Recorded.flip_iff {d a : BitVec n} (h : Recorded σ ρ (.sub n d a) e) :
    Recorded σ ρ (.sub n a d) e ↔ a = d := by
  constructor
  · intro hflip
    have hcarry : d.usubOverflow a = a.usubOverflow d :=
      (h .cf _ rfl).unique (hflip .cf _ rfl)
    rw [usubOverflow_eq_ult, usubOverflow_eq_ult, BitVec.ult, BitVec.ult,
      decide_eq_decide] at hcarry
    exact BitVec.eq_of_toNat_eq (by omega)
  · rintro rfl
    exact h

/-- The flags that a difference defines are not known any more. -/
theorem has_invalidate_sub {f : Eflag} (hf : f ≠ .af) :
    (e.invalidate .sub).validSet.has f = false := by
  have htouch : OpKind.sub.touches f = true := by cases f <;> first | rfl | exact absurd rfl hf
  rw [Eflags.has_invalidate, htouch, Bool.not_true, Bool.and_false]

theorem told_invalidate_sub (e : Eflags) (d a : BitVec n) :
    Told σ ρ (.sub n a d) (e.invalidate .sub) := by
  intro f v hf hknown
  have hne : f ≠ .af := by
    rintro rfl
    cases hf
  exact nomatch (has_invalidate_sub hne).symm.trans hknown

/-- A jump on equality can be answered. -/
def Jumps (σ : Session) (e : Eflags) : Prop :=
  ∀ inv, Builds σ exactly (e.computeJcc SymbolicExprBuilder.chain .z inv) fun _ => True

theorem jumps_invalidate_sub (e : Eflags) : Jumps σ (e.invalidate .sub) := by
  intro inv
  have hnot : (e.invalidate .sub).isValid .z ≠ true := by
    intro hv
    have hknown := FlagHistory.has_of_isValid hv (f := .zf) (by decide)
    exact nomatch (has_invalidate_sub (f := .zf) (by decide)).symm.trans hknown
  rw [Eflags.computeJcc, if_neg hnot]
  exact .ret trivial

/-- After a difference it is answered by the comparison of its operands. -/
theorem jumps_set_sub {u w : Input → BitVec n} {d x : Expr} (hd : Expresses n u d)
    (hx : Expresses n w x) (e : Eflags) (r : Option Expr) :
    Jumps σ (e.set .sub r (some d) (some x)) := by
  intro inv
  have hkind : (e.set .sub r (some d) (some x)).opKinds
      (Eflags.slot (e.set .sub r (some d) (some x)).start) =
      some .sub := by
    simp [Eflags.set]
  have hop : (e.set .sub r (some d) (some x)).operations .sub = .set .sub r (some d) (some x) := by
    simp [Eflags.set, Eflags.validate]
  have hfast : Builds σ exactly
      ((e.set .sub r (some d) (some x)).computeFastJcc SymbolicExprBuilder.chain .z inv)
      fun y => y ≠ none := by
    rw [Eflags.computeFastJcc, hkind]
    simp only [hop, Eflags.subKind, if_true, FlagOperation.set, FlagOperation.deref_some,
      Program.bind_eq, Program.ret_bind]
    exact Total.bind (hd.compare_builds _ hx) fun _ _ => .ret (Option.some_ne_none _)
  unfold Eflags.computeJcc
  split
  next =>
      refine Total.bind hfast fun y hy => ?_
      cases y with
      | none => exact absurd rfl hy
      | some _ => exact .ret trivial
  next => exact .ret trivial

end Flags

/-- The operands of `XADD` and `CMPXCHG`. -/
inductive AtomicForm (Reg : Type)
  | regReg (dst src : Reg)
  | memReg (m : MemArg Reg) (src : Reg)

namespace AtomicForm

open Handler

variable {Reg : Type} [DecidableEq Reg] (T : Process Reg)

def xadd : AtomicForm Reg → Handler Reg Unit
  | regReg dst src => T.instrumentXaddRegReg dst src
  | memReg m src => T.instrumentXaddMemReg m src

def cmpxchg : AtomicForm Reg → Handler Reg Unit
  | regReg dst src => T.instrumentCmpxchgRegReg dst src
  | memReg m src => T.instrumentCmpxchgMemReg m src

def srcReg : AtomicForm Reg → Reg
  | regReg _ src | memReg _ src => src

def dst : AtomicForm Reg → Operand Reg
  | regReg dst _ => .reg dst
  | memReg m _ => .mem m.addr m.size

def src (form : AtomicForm Reg) : Operand Reg :=
  .reg form.srcReg

/-- The accumulator of the size of the operands. -/
def ax (form : AtomicForm Reg) : Reg :=
  T.pin.getAx (T.pin.regSize form.srcReg)

/-- The destination is a register. -/
def isReg : AtomicForm Reg → Bool
  | regReg .. => true
  | memReg .. => false

/-- The operands have one size. -/
def Sized (form : AtomicForm Reg) : Prop :=
  form.dst.size T ∈ [1, 2, 4, 8] ∧ form.src.size T = form.dst.size T

/-- The operands can be read and written. -/
def Ready (s : Shadow) : AtomicForm Reg → Prop
  | form@(regReg dst src) => T.Tracked dst ∧ T.Tracked src ∧ T.Tracked (form.ax T)
  | form@(memReg m src) => (T.Addressed m ∧ Process.Mapped s.memory m.addr m.size) ∧ T.Tracked src ∧
      T.Tracked (form.ax T)

/-- Both operands are one register. -/
def Aliased (form : AtomicForm Reg) : Prop :=
  ∀ i, form.dst.place T i = form.src.place T i

section

variable (v : ShadowMap Reg) (form : AtomicForm Reg) (ρ : Input)

def dstBv : BitVec (form.dst.size T * 8) :=
  form.dst.bv T v ρ

def srcBv : BitVec (form.dst.size T * 8) :=
  (form.src.bv T v ρ).setWidth _

def axBv : BitVec (form.dst.size T * 8) :=
  ((Operand.reg (form.ax T)).bv T v ρ).setWidth _

end

/-- What the process has in the destination. -/
def dstValue : AtomicForm Reg → Nat
  | regReg dst _ => T.getRegValue dst
  | memReg m _ => T.getMemValue m.addr m.size

/-- The operands of `XADD`. -/
def operands : AtomicForm Reg → Handler Reg (Option (Expr × Expr))
  | regReg dst src => T.getExprFromRegReg dst src
  | memReg m src => T.getExprFromMemReg m src

/-- What `CMPXCHG` compares, in this order. -/
def compared : AtomicForm Reg → Handler Reg (Option (Expr × Expr))
  | form@(regReg dst _) => T.getExprFromRegReg dst (form.ax T)
  | form@(memReg m _) => T.getExprFromRegMem (form.ax T) m

/-- What `CMPXCHG` moves. -/
def move (equal : Bool) : AtomicForm Reg → MoveForm Reg
  | form@(regReg dst src) => if equal then .movRegReg dst src else .movRegReg (form.ax T) dst
  | form@(memReg m src) => if equal then .movMemReg m src else .movRegMem (form.ax T) m

/-- The operand that `CMPXCHG` writes, and the one it takes. -/
def target (equal : Bool) (form : AtomicForm Reg) : Operand Reg :=
  if equal then form.dst else .reg (form.ax T)

def source (equal : Bool) (form : AtomicForm Reg) : Operand Reg :=
  if equal then form.src else form.dst

variable {T} {form : AtomicForm Reg}

theorem xadd_eq : form.xadd T = T.instrumentXadd (form.operands T) (fun x => form.dst.set T x)
    (fun x => form.src.set T x) := by
  cases form <;> rfl

theorem cmpxchg_eq : form.cmpxchg T = (do
    let eDst ← form.dst.get T
    let eSrc ← form.src.get T
    let eAx ← (Operand.reg (form.ax T)).get T
    T.cmpxchg eDst eSrc eAx
      (T.instrumentBinary (form.compared T) .sub false fun x =>
        (if form.isReg then form.dst else .reg (form.ax T)).set T x)
      ((form.move T true).handler T) ((form.move T false).handler T)
      (T.getRegValue (form.ax T)) (form.dstValue T)) := by
  cases form <;> rfl

omit [DecidableEq Reg] in
theorem move_moves (equal : Bool) :
    (form.move T equal).moves T = [(form.target T equal, some (form.source equal))] := by
  cases form <;> cases equal <;> rfl

omit [DecidableEq Reg] in
theorem move_copies (equal : Bool) : (form.move T equal).exchanges = false ∧
    ¬ (form.move T equal).Overlaps ∧ (form.move T equal).pointers T = [] := by
  cases form <;> cases equal <;> exact ⟨rfl, id, rfl⟩

end AtomicForm

namespace Process

open Handler Stateful
open SymbolicExprBuilder (chain)

variable {Reg : Type} [DecidableEq Reg] {T : Process Reg} {σ : Session} {ok : MethodCall → Prop}
variable {s s₁ : Shadow} {form : AtomicForm Reg} {v v₁ v' : ShadowMap Reg} {d x : Operand Reg}
variable {ρ : Input}

/-- From `v` to `v'` the operand `d` gets what `x` held, up to what does not depend on the
input, and nothing else changes. -/
structure Receives (T : Process Reg) (v v' : ShadowMap Reg) (d x : Operand Reg) : Prop where
  copied : ∀ i < d.size T, v' (d.place T i) = v (x.place T i) ∨
    ¬ Symbolic v (x.place T i) ∧ v' (d.place T i) = none
  upper : ∀ k ∈ d.upper T, v' k = none
  other : ∀ k, k ∉ d.written T → v' k = v k ∨ ¬ Symbolic v k ∧ v' k = none

/-! ### Moves of bytes -/

theorem Receives.of_copies {form : MoveForm Reg} (hmoves : form.moves T = [(d, some x)])
    (hex : form.exchanges = false) (hpointers : form.pointers T = []) (hfades : Fades v v₁)
    (h : form.Copies T v₁ v') : T.Receives v v' d x := by
  have hclear : clear v₁ (form.pointerPlaces T) = v₁ := by
    rw [MoveForm.pointerPlaces, hpointers, List.flatMap_nil, clear_nil]
  have hleft {k : Place Reg} {y : Option Expr}
      (hy : form.Left T (clear v₁ (form.pointerPlaces T)) k y) :
      y = v k ∨ ¬ Symbolic v k ∧ y = none := by
    rw [hclear] at hy
    rcases hy with rfl | ⟨-, hnot, hnone⟩
    · exact hfades k
    · exact .inr ⟨mt hfades.symbolic_iff.2 hnot, hnone⟩
  refine ⟨fun i hi => hleft ?_, fun k hk => ?_, fun k hk => hleft ?_⟩
  · have hcopied := h.copied d x (by simp [hmoves]) i hi
    rwa [hex, if_neg Bool.false_ne_true] at hcopied
  · exact h.upper (d, some x) (by simp [hmoves]) k hk
  · refine h.other k fun p hp => ?_
    rw [hmoves, List.mem_singleton] at hp
    exact hp ▸ hk

omit [DecidableEq Reg] in
theorem forEach_keepsEflags {f : Nat → Handler Reg Unit} (h : ∀ i, KeepsEflags σ ok (f i))
    (is : List Nat) : KeepsEflags σ ok (forEach f is) := by
  induction is with
  | nil => exact .ret _
  | cons i is ih => exact (h i).bind fun _ => ih

theorem move_keepsEflags (form : AtomicForm Reg) (equal : Bool) :
    KeepsEflags σ ok ((form.move T equal).handler T) := by
  have hreg (dst src : Reg) : KeepsEflags σ ok (T.instrumentMovRegReg dst src) :=
    forEach_keepsEflags (fun i => (KeepsEflags.onRegs _).bind fun _ => .onRegs _) _
  have hload (dst : Reg) (m : MemArg Reg) : KeepsEflags σ ok (T.instrumentMovRegMem dst m) :=
    (T.makeAddrConcrete_keepsEflags m).bind fun _ =>
      forEach_keepsEflags (fun i => (KeepsEflags.onMemory _).bind fun _ => .onRegs _) _
  have hstore (m : MemArg Reg) (src : Reg) : KeepsEflags σ ok (T.instrumentMovMemReg m src) :=
    (T.makeAddrConcrete_keepsEflags m).bind fun _ =>
      forEach_keepsEflags (fun i => (KeepsEflags.onRegs _).bind fun _ => .onMemory _) _
  cases form with
  | regReg dst src =>
      cases equal with
      | true => exact hreg dst src
      | false => exact hreg _ dst
  | memReg m src =>
      cases equal with
      | true => exact hstore m src
      | false => exact hload _ m

omit [DecidableEq Reg] in
theorem instrumentJcc_keeps (hb : T.builder = chain) (taken : Bool) (target : Addr) (inv : Bool)
    (hjumps : Jumps σ s.eflags) :
    Achieves (body σ) exactly (T.instrumentJcc taken target .z inv) s fun _ s' _ => s' = s := by
  have hjcc : Achieves (body σ) exactly (T.computeJcc .z inv) s fun _ s' _ => s' = s := by
    refine Achieves.bind (P := fun x s' l => x = s ∧ s' = s ∧ l = []) (Total.ret ⟨rfl, rfl, rfl⟩) ?_
    rintro _ _ _ ⟨rfl, rfl, rfl⟩
    rw [hb]
    exact Achieves.lift (hjumps inv) fun _ _ => rfl
  refine hjcc.bind fun x s₁ _ h₁ => ?_
  cases x with
  | none => exact .ret h₁
  | some e => exact Total.ret h₁

/-! ### The comparison -/

/-- A comparison lets go of the flags if it finds nothing that depends on the input, and
records those of the difference otherwise. -/
structure Compares (σ : Session) (T : Process Reg) (s s' : Shadow)
    (os : List (Operand Reg)) {n : Nat}
    (u w : Input → BitVec n) : Prop where
  wellFormed : s'.WellFormed
  pages : s.memory.SamePages s'.memory
  fades : Fades (T.peek s) (T.peek s')
  flags : T.Empty (T.peek s') os ∧ s'.eflags = s.eflags.invalidate .sub ∨
    ∀ ρ, Recorded σ ρ (.sub n (u ρ) (w ρ)) s'.eflags
  jumps : Jumps σ s'.eflags

theorem Aged.compares_invalidate {s₁ : Shadow} {os : List (Operand Reg)} {n : Nat}
    {u w : Input → BitVec n} (h : T.Aged s s₁) (hempty : T.Empty (T.peek s₁) os) :
    Compares σ T s { s₁ with eflags := s₁.eflags.invalidate .sub } os u w where
  wellFormed := ⟨h.wellFormed.regs, h.wellFormed.memory⟩
  pages := h.pages
  fades := h.fades
  flags := .inl ⟨hempty, congrArg (Eflags.invalidate · .sub) h.eflags⟩
  jumps := jumps_invalidate_sub _

theorem Aged.compares_set {s₁ : Shadow} {os : List (Operand Reg)} {n : Nat}
    {u w : Input → BitVec n} {res d x : Expr} (h : T.Aged s s₁) (hn : 8 ≤ n)
    (hres : Expresses n (fun ρ => u ρ - w ρ) res) (hd : Expresses n u d) (hx : Expresses n w x) :
    Compares σ T s { s₁ with eflags := s₁.eflags.set .sub (some res) (some d) (some x) } os u w
      where
  wellFormed := ⟨h.wellFormed.regs, h.wellFormed.memory⟩
  pages := h.pages
  fades := h.fades
  flags := .inr fun ρ => (Performs.sub hn (hres.at ρ) (hd.at ρ) (hx.at ρ)).recorded s₁.eflags
  jumps := jumps_set_sub hd hx _ _

theorem compare_achieves (hb : T.builder = chain) {operands : Handler Reg (Option (Expr × Expr))}
    {os : List (Operand Reg)} {n : Nat} {u w : Input → BitVec n} (hn : 8 ≤ n)
    (h : Fetches σ T operands s os fun x => Expresses n u x.1 ∧ Expresses n w x.2)
    (hreads : Returns (body σ) exactly operands s) (put : Option Expr → Handler Reg Unit) :
    Achieves (body σ) exactly (T.instrumentBinary operands .sub false put) s fun _ s' _ =>
      Compares σ T s s' os u w := by
  have hop : Achieves (body σ) exactly (getOpKindBinary .sub : Handler Reg OpKind) s
      fun op s' _ => op = .sub ∧ s' = s := Total.ret ⟨rfl, rfl⟩
  refine hop.bind fun op s₀ _ ⟨hkind, hs₀⟩ => ?_
  rw [hkind, hs₀]
  refine computing_achieves h hreads (fun s₁ h₁ hidle => ?_) fun s₁ x h₁ ⟨hd, hx⟩ => ?_
  · exact Total.ret (h₁.compares_invalidate hidle.empty)
  · have hdo : Achieves (body σ) exactly (T.doBinary .sub .sub x.1 x.2) s₁ fun _ s' _ =>
        Compares σ T s s' os u w := by
      unfold doBinary
      rw [hb]
      refine Achieves.lift_bind (hd.binary_builds (k := .sub) nofun rfl hx) fun res hres => ?_
      exact onEflags_bind (.ret (h₁.compares_set hn hres hd hx))
    exact hdo.bind fun _ s' _ h' => .ret h'

/-! ### The handlers -/

/-- For the input `ρ` the sum is in the destination and what was there in the source, unless
they are one register, and the flags are those of the sum. -/
structure Adds (σ : Session) (T : Process Reg) (form : AtomicForm Reg) (s s' : Shadow) (ρ : Input) :
    Prop where
  dst : T.Shows (T.peek s') form.dst ρ (form.dstBv T (T.peek s) ρ + form.srcBv T (T.peek s) ρ)
  src : ¬ form.Aliased T → T.Shows (T.peek s') form.src ρ ((form.dstBv T (T.peek s) ρ).setWidth _)
  flags : Recorded σ ρ (.add _ (form.dstBv T (T.peek s) ρ) (form.srcBv T (T.peek s) ρ)) s'.eflags

/-- What `XADD` does. If neither operand depends on the input, nothing is left at them, and the
flags stay; else the sum, the old destination and the flags are right if and only if one register
does not get both of two values and the flags were those of the sum before. -/
def XaddDone (σ : Session) (T : Process Reg) (form : AtomicForm Reg) (s s' : Shadow) : Prop :=
  s'.eflags = s.eflags ∧
    (T.Idle (T.peek s) (T.peek s') [form.dst, form.src] ∨ ∃ v₁, Fades (T.peek s) v₁ ∧
      (∀ k ∈ form.dst.upper T ++ form.src.upper T, T.peek s' k = none) ∧
      (∀ k, k ∉ form.dst.written T → k ∉ form.src.written T → T.peek s' k = v₁ k) ∧
      ∀ ρ, Adds σ T form s s' ρ ↔ (form.Aliased T → form.srcBv T (T.peek s) ρ = 0) ∧
        Recorded σ ρ (.add _ (form.dstBv T (T.peek s) ρ) (form.srcBv T (T.peek s) ρ)) s.eflags)

omit [DecidableEq Reg] in
theorem cmpxchg_eq {x y z : Option Expr} (h : ¬ (x = none ∧ y = none ∧ z = none))
    (compare onEqual onDistinct : Handler Reg Unit) (valAx valDst : Nat) :
    T.cmpxchg x y z compare onEqual onDistinct valAx valDst = (do
      compare
      T.instrumentJcc true 0 .z (valAx != valDst)
      if valAx = valDst then onEqual else onDistinct) := by
  cases x <;> cases y <;> cases z <;> first | rfl | exact absurd ⟨rfl, rfl, rfl⟩ h

/-- What `CMPXCHG` does. If none of the three operands depends on the input, nothing is left at
them; else bytes are moved by what the process has in the accumulator and the destination. The
flags are let go of if these two do not depend on the input, and those of the accumulator minus
the destination if and only if, for a register, the two are equal. -/
def CmpxchgDone (σ : Session) (T : Process Reg) (form : AtomicForm Reg) (s s' : Shadow) : Prop :=
  let equal := decide (T.getRegValue (form.ax T) = form.dstValue T)
  let op (ρ : Input) := Operation.sub _ (form.axBv T (T.peek s) ρ) (form.dstBv T (T.peek s) ρ)
  T.Idle (T.peek s) (T.peek s') [form.dst, form.src, .reg (form.ax T)] ∧
      (∀ ρ, Told σ ρ (op ρ) s'.eflags) ∨
    T.Receives (T.peek s) (T.peek s') (form.target T equal) (form.source equal) ∧
      ((∀ o ∈ [form.dst, .reg (form.ax T)], ∀ k ∈ o.places T, ¬ Symbolic (T.peek s) k) ∧
          (∀ ρ, Told σ ρ (op ρ) s'.eflags) ∨
        ∀ ρ, Recorded σ ρ (op ρ) s'.eflags ↔
          (form.isReg = true → form.axBv T (T.peek s) ρ = form.dstBv T (T.peek s) ρ))

section Handlers

variable (hP : T.pin.Documented) (hN : T.pin.Named) (hb : T.builder = chain) (hs : s.WellFormed)
  (hv : T.Consistent σ.input (T.peek s)) (hn : form.Sized T) (hready : form.Ready T s)

include hn in
omit [DecidableEq Reg] in
theorem size_pos : 0 < form.dst.size T := by
  have hdst := hn.1
  simp only [List.mem_cons, List.not_mem_nil, or_false] at hdst
  omega

include hN hn in
theorem size_ax : (Operand.reg (form.ax T)).size T = form.dst.size T := by
  obtain ⟨hdst, hsrc⟩ := hn
  have hsrc : T.pin.regSize form.srcReg = form.dst.size T := hsrc
  rw [Operand.size, AtomicForm.ax, hsrc]
  exact hN.getAx _ hdst

include hP hb hs hv hn in
theorem operands_fetches : Fetches σ T (form.operands T) s [form.dst, form.src] fun x =>
    Expresses (form.dst.size T * 8) (form.dstBv T (T.peek s)) x.1 ∧
      Expresses (form.dst.size T * 8) (form.srcBv T (T.peek s)) x.2 := by
  have hsrc := hn.2
  cases form with
  | regReg dst src =>
      refine (getExprFromRegReg_fetches hP hb hs hv dst src).mono fun x ⟨hd, hx⟩ => ⟨hd, ?_⟩
      exact hx.setWidth (congrArg (· * 8) hsrc)
  | memReg m src =>
      refine (getExprFromMemReg_fetches hP hb hs hv (size_pos hn) src).mono
        fun x ⟨hd, hx⟩ => ⟨hd, ?_⟩
      exact hx.setWidth (congrArg (· * 8) hsrc)

omit hs hv in
include hP hn in
/-- The source is written last. -/
theorem adds_iff {v₁ v₂ : ShadowMap Reg} (hd : T.Puts v₁ v₂ form.dst fun ρ =>
      form.dstBv T (T.peek s) ρ + form.srcBv T (T.peek s) ρ) {s' : Shadow}
    (hx : T.Puts v₂ (T.peek s') form.src fun ρ => (form.dstBv T (T.peek s) ρ).setWidth _)
    (hflags : s'.eflags = s.eflags) (ρ : Input) :
    Adds σ T form s s' ρ ↔ (form.Aliased T → form.srcBv T (T.peek s) ρ = 0) ∧
      Recorded σ ρ (.add _ (form.dstBv T (T.peek s) ρ) (form.srcBv T (T.peek s) ρ)) s.eflags := by
  have hsize := hn.2
  have hpos := size_pos hn
  have hreg : ∀ addr addr' n n', ¬ (form.dst = .mem addr n ∧ form.src = .mem addr' n') :=
    fun _ _ _ _ h => nomatch h.2
  have hshows : T.Shows (T.peek s') form.dst ρ
      (form.dstBv T (T.peek s) ρ + form.srcBv T (T.peek s) ρ) ↔
        (form.Aliased T → form.srcBv T (T.peek s) ρ = 0) := by
    rcases Operand.place_eq_or_ne hP hsize.symm hreg with hsame | hapart
    · have hold : T.Shows (T.peek s') form.dst ρ (form.dstBv T (T.peek s) ρ) := by
        intro i hi
        rw [hsame i]
        obtain ⟨e, he, hval⟩ := hx.shows ρ i (hsize ▸ hi)
        refine ⟨e, he, hval.trans ?_⟩
        rw [BitVec.toNat_setWidth, Bytes.byte_mod _ (hsize ▸ hi)]
      rw [hold.iff_eq, imp_iff_right (show form.Aliased T from hsame), eq_comm]
      exact add_eq_left
    · refine iff_of_true (fun i hi => ?_) fun hsame =>
        absurd (hsame 0) (hapart 0 hpos 0 (hsize ▸ hpos))
      rw [hx.other]
      · exact hd.shows ρ i hi
      · rw [Operand.written_eq, List.mem_append, Operand.mem_places_iff]
        rintro (⟨j, hj, h⟩ | h)
        · exact hapart i hi j hj h
        · exact Operand.place_notMem_upper hP hsize.symm hi h
  constructor
  · intro h
    exact ⟨hshows.1 h.dst, hflags ▸ h.flags⟩
  · rintro ⟨halias, hrecorded⟩
    exact ⟨hshows.2 halias, fun _ => hx.shows ρ, hflags ▸ hrecorded⟩

include hP hb hs hn hready in
theorem operands_returns : Returns (body σ) exactly (form.operands T) s := by
  cases form with
  | regReg dst src => exact getExprFromRegReg_returns hP hb hs hready.1 hready.2.1
  | memReg m src => exact getExprFromMemReg_returns hP hb hs hready.1.1 (size_pos hn) hready.2.1

include hready in
/-- The destination can be written. -/
theorem dst_writable : T.Writable s form.dst := by
  cases form with
  | regReg dst src => exact hready.1
  | memReg m src => exact hready.1.2

include hready in
theorem registers_tracked : T.Tracked form.srcReg ∧ T.Tracked (form.ax T) := by
  cases form with
  | regReg dst src => exact hready.2
  | memReg m src => exact hready.2

variable (form) in
include hP hb hs hv hn hready in
theorem xadd_done :
    Achieves (body σ) exactly (form.xadd T) s fun _ s' _ => XaddDone σ T form s s' := by
  have hdst := hn.1
  simp only [List.mem_cons, List.not_mem_nil, or_false] at hdst
  have hsize : form.src.size T = form.dst.size T := hn.2
  have hsrc : T.Tracked form.srcReg := (registers_tracked hready).1
  rw [AtomicForm.xadd_eq]
  refine computing_achieves (operands_fetches hP hb hs hv hn) (operands_returns hP hb hs hn hready)
    (fun s₁ h₁ hidle => Total.ret ⟨h₁.eflags, .inl hidle⟩) fun s₁ x h₁ ⟨hd, hx⟩ => ?_
  rw [hb]
  refine Achieves.lift_bind (hx.binary_builds (k := .add) nofun rfl hd) fun sum hsum => ?_
  have hsum : Expresses (form.dst.size T * 8)
      (fun ρ => form.dstBv T (T.peek s) ρ + form.srcBv T (T.peek s) ρ) sum :=
    hsum.congr fun ρ => BitVec.add_comm _ _
  have hwritable : T.Writable s₁ form.dst := (dst_writable hready).of_samePages h₁.pages
  refine (set_achieves hP hb hwritable (by omega) hsum).bind fun _ s₂ _ ⟨hflags₂, hputs₂⟩ => ?_
  refine (set_achieves (o := form.src) hP hb hsrc (by omega) (hd.setWidth (by rw [hsize]))).mono
    fun _ s₃ _ ⟨hflags₃, hputs₃⟩ => ?_
  have hflags : s₃.eflags = s.eflags := (hflags₃.trans hflags₂).trans h₁.eflags
  refine ⟨hflags, .inr ⟨T.peek s₁, h₁.fades, fun k hk => ?_, fun k hkd hks => ?_, fun ρ => ?_⟩⟩
  · by_cases hks : k ∈ form.src.upper T
    · exact hputs₃.upper k hks
    · have hkd := (List.mem_append.1 hk).resolve_right hks
      rw [hputs₃.other k, hputs₂.upper k hkd]
      rw [Operand.written_eq, List.mem_append, Operand.mem_places_iff]
      rintro (⟨j, hj, rfl⟩ | h)
      · exact Operand.place_notMem_upper hP hsize hj hkd
      · exact hks h
  · rw [hputs₃.other k hks, hputs₂.other k hkd]
  · exact adds_iff hP hn hputs₂ hputs₃ hflags ρ

include hP hN hb hs hv hn in
theorem compared_fetches : Fetches σ T (form.compared T) s [form.dst, .reg (form.ax T)] fun x =>
    Expresses (form.dst.size T * 8)
        (if form.isReg then form.dstBv T (T.peek s) else form.axBv T (T.peek s)) x.1 ∧
      Expresses (form.dst.size T * 8)
        (if form.isReg then form.axBv T (T.peek s) else form.dstBv T (T.peek s)) x.2 := by
  have hax := size_ax hN hn
  cases form with
  | regReg dst src =>
      refine (getExprFromRegReg_fetches hP hb hs hv dst _).mono fun x ⟨hd, ha⟩ => ⟨hd, ?_⟩
      exact ha.setWidth (by rw [hax])
  | memReg m src =>
      have hpos := size_pos hn
      refine Ensures.mono (getExprFromRegMem_fetches hP hb hs hv _ hpos)
        fun x s' _ ⟨h, hx⟩ => ⟨h, ?_⟩
      cases x with
      | none => exact fun o ho => hx o (by simpa [AtomicForm.dst, or_comm] using ho)
      | some x => exact ⟨hx.1.setWidth (by rw [hax]), hx.2⟩

include hP hN hb hv hn in
/-- The values are those from before the operands have been read. -/
theorem compared_fetches_after (h₁ : T.Aged s s₁) :
    Fetches σ T (form.compared T) s₁ [form.dst, .reg (form.ax T)] fun x =>
      Expresses (form.dst.size T * 8)
          (if form.isReg then form.dstBv T (T.peek s) else form.axBv T (T.peek s)) x.1 ∧
        Expresses (form.dst.size T * 8)
          (if form.isReg then form.axBv T (T.peek s) else form.dstBv T (T.peek s)) x.2 := by
  have hd : form.dstBv T (T.peek s₁) = form.dstBv T (T.peek s) := h₁.fades.bv hv form.dst
  have ha : form.axBv T (T.peek s₁) = form.axBv T (T.peek s) := by
    funext ρ
    rw [AtomicForm.axBv, AtomicForm.axBv, h₁.fades.bv hv]
  rw [← hd, ← ha]
  exact compared_fetches hP hN hb h₁.wellFormed (h₁.fades.consistent hv) hn

include hP hb hn hready in
theorem compared_returns (h₁ : s₁.WellFormed) :
    Returns (body σ) exactly (form.compared T) s₁ := by
  cases form with
  | regReg dst src => exact getExprFromRegReg_returns hP hb h₁ hready.1 hready.2.2
  | memReg m src => exact getExprFromRegMem_returns hP hb h₁ hready.2.2 hready.1.1 (size_pos hn)

include hN hn in
theorem move_sized (equal : Bool) : (form.move T equal).Sized T := by
  have hax := size_ax hN hn
  obtain ⟨hdst, hsrc⟩ := hn
  simp only [List.mem_cons, List.not_mem_nil, or_false] at hdst
  rw [MoveForm.Sized, form.move_moves equal]
  intro p hp
  rw [List.mem_singleton.1 hp]
  cases equal with
  | true =>
      exact ⟨by simp only [AtomicForm.target, if_true]; omega,
        fun x hx => Option.some.inj hx ▸ hsrc⟩
  | false =>
      refine ⟨?_, fun x hx => ?_⟩
      · simp only [AtomicForm.target, Bool.false_eq_true, if_false]
        omega
      · exact Option.some.inj hx ▸ hax.symm

include hready in
theorem move_accessible (equal : Bool) (hpages : s.memory.SamePages s₁.memory) :
    (form.move T equal).Accessible T s₁ := by
  cases form with
  | regReg dst src =>
      cases equal with
      | true => exact ⟨hready.1, hready.2.1⟩
      | false => exact ⟨hready.2.2, hready.1⟩
  | memReg m src =>
      cases equal with
      | true => exact ⟨hready.2.1, hready.1.1, hready.1.2.of_samePages hpages⟩
      | false => exact ⟨hready.2.2, hready.1.1⟩

include hP hN hb hn hready in
theorem move_receives (equal : Bool) (h₁ : s₁.WellFormed) (hpages : s.memory.SamePages s₁.memory)
    (hfades : Fades v (T.peek s₁)) :
    Achieves (body σ) exactly ((form.move T equal).handler T) s₁ fun _ s' _ =>
      T.Receives v (T.peek s') (form.target T equal) (form.source equal) ∧
        s'.eflags = s₁.eflags := by
  obtain ⟨hex, hover, hpointers⟩ := form.move_copies (T := T) equal
  have hsized := move_sized hN hn equal
  have hreturns : Returns (body σ) exactly ((form.move T equal).handler T) s₁ :=
    MoveForm.handler_returns hP hb h₁ hsized (move_accessible hready equal hpages) fun _ _ h => h
  refine (hreturns.achieves (Ensures.and (MoveForm.handler_copies hP hN hb h₁ hsized hover hex)
    (move_keepsEflags form equal s₁))).mono fun _ s' _ ⟨hcopies, hflags⟩ => ?_
  exact ⟨.of_copies (form.move_moves equal) hex hpointers hfades hcopies, hflags⟩

variable (form) in
include hP hN hb hs hv hn hready in
theorem cmpxchg_done :
    Achieves (body σ) exactly (form.cmpxchg T) s fun _ s' _ => CmpxchgDone σ T form s s' := by
  have hpos : 8 ≤ form.dst.size T * 8 := by
    have := size_pos hn
    omega
  have hdst : T.Readable form.dst := (dst_writable hready).readable
  obtain ⟨hsrc, hax⟩ := registers_tracked hready
  rw [AtomicForm.cmpxchg_eq]
  refine Achieves.bind ((get_returns hP hb hs hdst).achieves (get_gets hP hb form.dst s hs hv)) ?_
  rintro x s₁ _ ⟨h₁, _, hx⟩
  refine Achieves.bind ((get_returns (o := form.src) hP hb h₁.wellFormed hsrc).achieves
    ((get_gets hP hb form.src).after h₁ hv)) ?_
  rintro y s₂ _ ⟨h₂, _, hy, hkeep₂⟩
  refine Achieves.bind ((get_returns (o := .reg (form.ax T)) hP hb h₂.wellFormed hax).achieves
    ((get_gets hP hb (.reg (form.ax T))).after h₂ hv)) ?_
  rintro z s₃ _ ⟨h₃, _, hz, hkeep₃⟩
  by_cases hnone : x = none ∧ y = none ∧ z = none
  · obtain ⟨rfl, rfl, rfl⟩ := hnone
    refine Total.ret (.inl ⟨⟨h₃.fades, ?_⟩, fun ρ => told_invalidate_sub _ _ _⟩)
    intro o ho
    simp only [List.mem_cons, List.not_mem_nil, or_false] at ho
    rcases ho with rfl | rfl | rfl
    · exact hkeep₃ _ (hkeep₂ _ (hx rfl)) _ (List.mem_singleton_self _)
    · exact hkeep₃ _ (hy rfl) _ (List.mem_singleton_self _)
    · exact hz rfl _ (List.mem_singleton_self _)
  · rw [Process.cmpxchg_eq hnone]
    refine (compare_achieves hb hpos (compared_fetches_after hP hN hb hv hn h₃)
      (compared_returns hP hb hn hready h₃.wellFormed) _).bind fun _ s₄ _ hcompare => ?_
    refine (instrumentJcc_keeps hb _ _ _ hcompare.jumps).bind fun _ s₅ _ hs₅ => ?_
    rw [hs₅]
    have hpages := h₃.pages.trans hcompare.pages
    have hfades := h₃.fades.trans hcompare.fades
    have hmove (equal : Bool) (heq : decide (T.getRegValue (form.ax T) = form.dstValue T) = equal) :
        Achieves (body σ) exactly ((form.move T equal).handler T) s₄ fun _ s' _ =>
          CmpxchgDone σ T form s s' := by
      refine (move_receives hP hN hb hn hready equal hcompare.wellFormed hpages hfades).mono ?_
      rintro _ s' _ ⟨hreceives, hflags⟩
      rw [CmpxchgDone, heq]
      refine .inr ⟨hreceives, ?_⟩
      rw [hflags]
      rcases hcompare.flags with ⟨hempty, hlet⟩ | hrecorded
      · exact .inl ⟨fun o ho k hk => hfades.not_symbolic (hempty o ho k hk), fun ρ => hlet ▸
          told_invalidate_sub _ _ _⟩
      · refine .inr fun ρ => ?_
        have h := hrecorded ρ
        cases form with
        | regReg dst src => exact h.flip_iff.trans (by simp [AtomicForm.isReg])
        | memReg m src => exact iff_of_true h (by rintro ⟨⟩)
    split
    next heq => exact hmove true (decide_eq_true heq)
    next hne => exact hmove false (decide_eq_false hne)

variable (form) in
include hP hN hb hs hv hn hready in
/-- `XADD` is right if and only if the operands are two registers or the value is zero, and the
flags were those of the sum before; `CMPXCHG` always writes what it should, and its flags are
right unless it compares two registers that are not equal. -/
theorem instrumentXadd_instrumentCmpxchg_iff :
    Achieves (body σ) exactly (form.xadd T) s (fun _ s' _ => XaddDone σ T form s s') ∧
      Achieves (body σ) exactly (form.cmpxchg T) s fun _ s' _ => CmpxchgDone σ T form s s' :=
  ⟨xadd_done form hP hb hs hv hn hready, cmpxchg_done form hP hN hb hs hv hn hready⟩

end Handlers

open X86Reg (process shadow)

/-- A process that has one in `RAX` and zero everywhere else. -/
def oneInRax : Process X86Reg :=
  { process with context := fun r i => if r = .rax ∧ i = 0 then 1 else 0 }

/-- The cell of `CL`. -/
def clCell : Nat := 16

theorem oneInRax_consistent :
    oneInRax.Consistent quietSession.input (oneInRax.peek (shadow [clCell])) := by
  intro k e he
  have hread : e = .read 0 := X86Reg.peek_shadow he
  have hval : e.value quietSession.input = 0 := hread ▸ rfl
  rw [hval]
  by_cases hk : k = .reg .rax 0
  · subst hk
    exact nomatch (show oneInRax.peek (shadow [clCell]) (.reg .rax 0) = none from rfl).symm.trans he
  · cases k with
    | mem addr => rfl
    | reg f i =>
        have hcontext : oneInRax.context f i = 0 := if_neg fun ⟨hf, hi⟩ => hk (by rw [hf, hi])
        exact (congrArg BitVec.toNat hcontext).symm

/-- Both operands are registers that have cells. -/
theorem ready_oneInRax {dst src : X86Reg} (hdst : dst ∉ [.invalid, .rflags])
    (hsrc : src ∉ [.invalid, .rflags])
    (hax : (AtomicForm.regReg dst src).ax oneInRax ∉ [.invalid, .rflags]) (s : Shadow) :
    (AtomicForm.regReg dst src).Ready oneInRax s := by
  have htracked {r : X86Reg} (hr : r ∉ [.invalid, .rflags]) : oneInRax.Tracked r :=
    ⟨(X86Reg.tracked hr).hasCells, (X86Reg.tracked hr).size⟩
  exact ⟨htracked hdst, htracked hsrc, htracked hax⟩

/-- `CMPXCHG RCX, RBX` with one in `RAX` and an input byte in `RCX`. -/
theorem instrumentCmpxchg_rcx_rbx : ∃ s' l w',
    Runs (body quietSession) (oneInRax.instrumentCmpxchgRegReg .rcx .rbx (shadow [clCell]))
      (freshWorld 1) ((), s', l) w' ∧ oneInRax.peek s' (.reg .rax 0) = some (.read 0) ∧
      Recorded quietSession (fun _ => 1) (.sub 64 1 1) s'.eflags := by
  obtain ⟨-, h⟩ := instrumentXadd_instrumentCmpxchg_iff (T := oneInRax) (σ := quietSession)
    (.regReg .rcx .rbx) X86Reg.registers_documented X86Reg.registers_named rfl
    (X86Reg.shadow_init_wellFormed [clCell]) oneInRax_consistent ⟨by decide, rfl⟩
    (ready_oneInRax (by decide) (by decide) (by decide) _)
  obtain ⟨_, s', l, w', hr, hdone⟩ := exists_run (n := 40) (w := freshWorld 1) h (by decide +kernel)
  have hsym : Symbolic (oneInRax.peek (shadow [clCell])) (.reg .rcx 0) := ⟨.read 0, rfl, by decide⟩
  rcases hdone with ⟨hidle, -⟩ | ⟨hreceives, hflags⟩
  · exact absurd hsym (hidle.not_symbolic List.mem_cons_self (by decide))
  · refine ⟨s', l, w', hr, ?_, ?_⟩
    · have hne : decide (oneInRax.getRegValue .rax = oneInRax.getRegValue .rcx) = false := by
        decide +kernel
      have hreceives : oneInRax.Receives (oneInRax.peek (shadow [clCell])) (oneInRax.peek s')
          (AtomicForm.target oneInRax
            (decide (oneInRax.getRegValue .rax = oneInRax.getRegValue .rcx))
            (.regReg .rcx .rbx))
          (AtomicForm.source (decide (oneInRax.getRegValue .rax = oneInRax.getRegValue .rcx))
            (.regReg .rcx .rbx)) := hreceives
      rw [hne] at hreceives
      exact (hreceives.copied 0 (by decide)).resolve_right fun h => h.1 hsym
    · rcases hflags with ⟨hnot, -⟩ | hiff
      · exact absurd hsym (hnot _ List.mem_cons_self _ (by decide))
      · let v := oneInRax.peek (shadow [clCell])
        have hax : (AtomicForm.regReg X86Reg.rcx .rbx).axBv oneInRax v (fun _ => 1) =
            (1 : BitVec 64) :=
          BitVec.eq_of_toNat_eq (by decide +kernel)
        have hdst : (AtomicForm.regReg X86Reg.rcx .rbx).dstBv oneInRax v (fun _ => 1) =
            (1 : BitVec 64) :=
          BitVec.eq_of_toNat_eq (by decide +kernel)
        have h : Recorded quietSession (fun _ => 1)
            (.sub 64 ((AtomicForm.regReg X86Reg.rcx .rbx).axBv oneInRax v fun _ => 1)
              ((AtomicForm.regReg X86Reg.rcx .rbx).dstBv oneInRax v fun _ => 1)) s'.eflags :=
          (hiff fun _ => 1).2 fun _ => hax.trans hdst.symm
        rwa [hax, hdst] at h

/-- `XADD RCX, RCX` of five does not leave ten, and `CMPXCHG RCX, RBX` does not record the flags
of one minus zero. -/
theorem instrumentXadd_instrumentCmpxchg_not : (∃ s' l w',
    Runs (body quietSession) (oneInRax.instrumentXaddRegReg .rcx .rcx (shadow [clCell]))
      (freshWorld 1)
      ((), s', l) w' ∧ ¬ oneInRax.Shows (oneInRax.peek s') (.reg .rcx) (fun _ => 5)
      (10 : BitVec 64)) ∧
    ∃ s' l w', Runs (body quietSession)
      (oneInRax.instrumentCmpxchgRegReg .rcx .rbx (shadow [clCell]))
      (freshWorld 1) ((), s', l) w' ∧
        ¬ Recorded quietSession (fun _ => 0) (.sub 64 1 0) s'.eflags := by
  constructor
  · have hp : ((oneInRax.instrumentXaddRegReg .rcx .rcx (shadow [clCell])).run
        (exec (body quietSession) 40) (freshWorld 1)).map (fun x =>
          (oneInRax.peek x.1.2.1 (.reg .rcx 0)).map fun e => e.value fun _ => 5) =
            some (some 5) := by
      decide +kernel
    obtain ⟨⟨⟨_, s', l⟩, w'⟩, hrun, hlow⟩ := Option.map_eq_some_iff.1 hp
    refine ⟨s', l, w', ⟨40, hrun⟩, fun hshows => ?_⟩
    obtain ⟨e, he, hval⟩ := hshows 0 (by decide)
    have he : oneInRax.peek s' (.reg .rcx 0) = some e := he
    rw [he, Option.map_some, hval] at hlow
    exact absurd hlow (by decide)
  · have h := cmpxchg_done (T := oneInRax) (σ := quietSession) (.regReg .rcx .rbx)
      X86Reg.registers_documented X86Reg.registers_named rfl
      (X86Reg.shadow_init_wellFormed [clCell]) oneInRax_consistent ⟨by decide, rfl⟩
      (ready_oneInRax (by decide) (by decide) (by decide) _)
    obtain ⟨_, s', l, w', hr, hdone⟩ :=
      exists_run (n := 40) (w := freshWorld 1) h (by decide +kernel)
    refine ⟨s', l, w', hr, fun hrecorded => ?_⟩
    have hsym : Symbolic (oneInRax.peek (shadow [clCell])) (.reg .rcx 0) :=
      ⟨.read 0, rfl, by decide⟩
    rcases hdone with ⟨hidle, -⟩ | ⟨-, ⟨hnot, -⟩ | hiff⟩
    · exact absurd hsym (hidle.not_symbolic List.mem_cons_self (by decide))
    · exact absurd hsym (hnot _ List.mem_cons_self _ (by decide))
    · let v := oneInRax.peek (shadow [clCell])
      have hax : (AtomicForm.regReg X86Reg.rcx .rbx).axBv oneInRax v (fun _ => 0) =
          (1 : BitVec 64) :=
        BitVec.eq_of_toNat_eq (by decide +kernel)
      have hdst : (AtomicForm.regReg X86Reg.rcx .rbx).dstBv oneInRax v (fun _ => 0) =
          (0 : BitVec 64) :=
        BitVec.eq_of_toNat_eq (by decide +kernel)
      have hrecorded : Recorded quietSession (fun _ => 0)
          (.sub 64 ((AtomicForm.regReg X86Reg.rcx .rbx).axBv oneInRax v fun _ => 0)
            ((AtomicForm.regReg X86Reg.rcx .rbx).dstBv oneInRax v fun _ => 0)) s'.eflags := by
        rwa [hax, hdst]
      have heq := (hiff fun _ => 0).1 hrecorded rfl
      have hone : (1 : BitVec 64) = 0 := hax.symm.trans (heq.trans hdst)
      exact absurd hone (by decide)

end Process

end Qsym
