import Qsym.Instrument.Moving

/-!
# Qsym.Concolic.Tame

Handlers **invent nothing**. If the expressions of the shadow, those that are kept for the flags
included, read some bytes of the input and divide nothing, then so do the ones that a handler
leaves and the ones that it requests (`Handler.Tame`). That is a matter of the text of the handler,
whatever it computes.

So the runs of a handler come to no division (`Tame.safe`), and the solver is asked about bytes that
the input has.
-/

namespace Qsym

open Procedure Qsym.Expr

variable {reads : Nat → Prop}

/-- The expression reads the bytes `reads`, and divides nothing. -/
abbrev Expr.Tame (reads : Nat → Prop) (e : Expr) : Prop :=
  e.Over reads False

/-- The expression, if there is one. -/
abbrev Expr.OptTame (reads : Nat → Prop) (x : Option Expr) : Prop :=
  ∀ e, x = some e → e.Tame reads

theorem Expr.optTame {e : Expr} (h : e.Tame reads) : OptTame reads (some e) := by
  rintro _ ⟨⟩
  exact h

/-- The program stays over the bytes `reads`, and so does what it returns. -/
abbrev Build.OptStays (reads : Nat → Prop) (p : Build (Option Expr)) : Prop :=
  p.Stays reads False (OptTame reads)

theorem Build.optStays_create {b : ExprBuilder} {c : Call} (hc : c.plain.Over reads False) :
    OptStays reads (do
      let e ← b.create c
      return some e) :=
  Build.stays_create_bind.2 ⟨hc, fun _ he => optTame he⟩

/-! ### Flags -/

structure FlagOperation.Tame (reads : Nat → Prop) (op : FlagOperation) : Prop where
  result : OptTame reads op.result
  dst : OptTame reads op.dst
  src : OptTame reads op.src

/-- What is kept of the operations. -/
def Eflags.Tame (reads : Nat → Prop) (e : Eflags) : Prop :=
  ∀ kind, (e.operations kind).Tame reads

namespace FlagOperation

variable {b : ExprBuilder} {op : FlagOperation} {e : Expr} {x : Option Expr}

theorem deref_stays (hx : OptTame reads x) : Call.Stays reads False (deref x) := by
  cases x with
  | none => trivial
  | some e => exact hx e rfl

theorem bitToBool_stays (he : e.Tame reads) : Call.Stays reads False (bitToBool b e) := by
  unfold bitToBool
  split
  · exact Build.stays_create_bind.2 ⟨trivial, fun one hone => next_stays ⟨he, hone⟩⟩
  · trivial

theorem createMsb_stays (he : e.Tame reads) : Call.Stays reads False (createMsb b e) :=
  next_stays he

theorem createLsb_stays (he : e.Tame reads) : Call.Stays reads False (createLsb b e) :=
  next_stays he

theorem bitCF_stays {bit : ExprBuilder → Expr → Build Expr} (hx : OptTame reads x)
    (hbit : ∀ {e : Expr}, e.Tame reads → Call.Stays reads False (bit b e)) :
    Call.Stays reads False (bitCF b x bit) :=
  (deref_stays hx).bind fun _ he => (hbit he).bind fun _ hy => bitToBool_stays hy

theorem xorBits_stays {acc : Expr} (he : e.Tame reads) (hacc : acc.Tame reads) (is : List Nat) :
    Call.Stays reads False (xorBits b e acc is) := by
  induction is generalizing acc with
  | nil => exact hacc
  | cons i is ih =>
      refine Build.stays_create_bind.2 ⟨he, fun bit hbit => ?_⟩
      exact Build.stays_create_bind.2 ⟨⟨nofun, hbit, hacc⟩, fun acc' hacc' => ih hacc'⟩

variable (h : op.Tame reads)
include h

theorem computePF_stays : Call.Stays reads False (op.computePF b) := by
  refine Build.stays_create_bind.2 ⟨trivial, fun zero hzero => ?_⟩
  refine (deref_stays h.result).bind fun result hr => ?_
  refine Build.stays_create_bind.2 ⟨hr, fun bit hbit => ?_⟩
  exact (xorBits_stays hr hbit _).bind fun res hres => next_stays ⟨hzero, hres⟩

/-- The comparison of the result with a constant. -/
theorem compareResult_stays (kind : CompareKind) (v : (n : Nat) → BitVec n) :
    Call.Stays reads False (do
      let result ← deref op.result
      let imm ← b.create (.constant result.bits (v result.bits))
      b.create (.compare kind result imm)) := by
  refine (deref_stays h.result).bind fun result hr => ?_
  exact Build.stays_create_bind.2 ⟨trivial, fun imm himm => next_stays ⟨hr, himm⟩⟩

theorem addOF_stays : Call.Stays reads False (op.addOF b) := by
  refine (deref_stays h.dst).bind fun dst hd => (deref_stays h.src).bind fun src hs => ?_
  refine Build.stays_create_bind.2 ⟨⟨nofun, hd, hs⟩, fun x hx => ?_⟩
  refine Build.stays_create_bind.2 ⟨hx, fun x hx => (createMsb_stays hx).bind fun x hx => ?_⟩
  refine (deref_stays h.result).bind fun result hr => ?_
  refine Build.stays_create_bind.2 ⟨⟨nofun, hr, hd⟩, fun y hy => ?_⟩
  refine (createMsb_stays hy).bind fun y hy => ?_
  exact Build.stays_create_bind.2 ⟨⟨nofun, hx, hy⟩, fun z hz => bitToBool_stays hz⟩

theorem subOF_stays : Call.Stays reads False (op.subOF b) := by
  refine (deref_stays h.dst).bind fun dst hd => (deref_stays h.src).bind fun src hs => ?_
  refine Build.stays_create_bind.2
    ⟨⟨nofun, hd, hs⟩, fun x hx => (createMsb_stays hx).bind fun x hx => ?_⟩
  refine (deref_stays h.result).bind fun result hr => ?_
  refine Build.stays_create_bind.2 ⟨⟨nofun, hr, hd⟩, fun y hy => ?_⟩
  refine (createMsb_stays hy).bind fun y hy => ?_
  exact Build.stays_create_bind.2 ⟨⟨nofun, hx, hy⟩, fun z hz => bitToBool_stays hz⟩

theorem shiftOF_stays : Call.Stays reads False (op.shiftOF b) := by
  refine (deref_stays h.result).bind fun result hr => (deref_stays h.dst).bind fun dst hd => ?_
  refine Build.stays_create_bind.2 ⟨⟨nofun, hr, hd⟩, fun x hx => ?_⟩
  exact (createMsb_stays hx).bind fun x hx => bitToBool_stays hx

/-- The exclusive or of the highest bit of the result and another one. -/
theorem rotateOF_stays {bit : Expr → Build Expr}
    (hbit : ∀ {e : Expr}, e.Tame reads → Call.Stays reads False (bit e)) :
    Call.Stays reads False (do
      let result ← deref op.result
      let e ← createMsb b result
      let e2 ← bit result
      let e ← b.createXor e e2
      bitToBool b e) := by
  refine (deref_stays h.result).bind fun result hr => (createMsb_stays hr).bind fun x hx => ?_
  refine (hbit hr).bind fun y hy => ?_
  exact Build.stays_create_bind.2 ⟨⟨nofun, hx, hy⟩, fun z hz => bitToBool_stays hz⟩

theorem mulOF_stays (ext : ExtKind) : Call.Stays reads False (op.mulOF b ext) := by
  refine (deref_stays h.result).bind fun result hr => ?_
  refine Build.stays_create_bind.2 ⟨hr, fun x hx => ?_⟩
  exact Build.stays_create_bind.2 ⟨hx, fun y hy => next_stays ⟨hy, hr⟩⟩

theorem computeOF_stays (kind : OpKind) : Call.Stays reads False (op.computeOF b kind) := by
  cases kind with
  | add => exact addOF_stays h
  | sub => exact subOF_stays h
  | logic => exact next_stays trivial
  | inc => exact compareResult_stays h .equal fun n => (1 : BitVec n) <<< (n - 1)
  | dec => exact compareResult_stays h .equal fun n => ((1 : BitVec n) <<< (n - 1)) - 1
  | shl | shr => exact shiftOF_stays h
  | ror => exact rotateOF_stays h fun he => next_stays he
  | rol => exact rotateOF_stays h fun he => createLsb_stays he
  | smul | umul => exact mulOF_stays h _
  | bt => trivial

theorem computeCF_stays (kind : OpKind) : Call.Stays reads False (op.computeCF b kind) := by
  cases kind with
  | add => exact (deref_stays h.result).bind fun r hr => (deref_stays h.src).bind fun s hs =>
      next_stays ⟨hr, hs⟩
  | sub => exact (deref_stays h.dst).bind fun d hd => (deref_stays h.src).bind fun s hs =>
      next_stays ⟨hd, hs⟩
  | logic => exact next_stays trivial
  | inc | dec => trivial
  | shl => exact bitCF_stays h.dst createMsb_stays
  | shr => exact bitCF_stays h.dst createLsb_stays
  | ror => exact bitCF_stays h.result createMsb_stays
  | rol => exact bitCF_stays h.result createLsb_stays
  | smul | umul => exact mulOF_stays h _
  | bt => exact deref_stays h.result

theorem compute_stays {kind : OpKind} {f : Eflag} {p : Build Expr}
    (hp : op.compute b kind f = some p) : Call.Stays reads False p := by
  cases f with
  | af => cases hp
  | cf => cases hp; exact computeCF_stays h kind
  | pf => cases hp; exact computePF_stays h
  | zf => cases hp; exact compareResult_stays h .equal fun n => BitVec.ofNat n 0
  | sf => cases hp; exact compareResult_stays h .slt fun n => BitVec.ofNat n 0
  | of => cases hp; exact computeOF_stays h kind

end FlagOperation

namespace Eflags

open FlagOperation

variable {b : ExprBuilder} {e : Eflags} {jcc : JccKind} {inv : Bool} {x : Option Expr}

theorem Tame.set (h : e.Tame reads) {result : Expr} {dst src : Option Expr} (kind : OpKind)
    (hr : result.Tame reads) (hd : OptTame reads dst) (hs : OptTame reads src) :
    (e.set kind (some result) dst src).Tame reads := by
  intro k
  by_cases hk : k = kind
  · subst hk
    simp only [Eflags.set, Function.update_self]
    exact ⟨optTame hr, hd, hs⟩
  · simp only [Eflags.set, Function.update_of_ne hk]
    exact h k

theorem slowInvert_stays (hx : OptTame reads x) : Build.OptStays reads (slowInvert b inv x) := by
  unfold slowInvert
  split
  · exact (deref_stays hx).bind fun r hr => Build.optStays_create hr
  · exact hx

variable (h : e.Tame reads)
include h

theorem computeFlag_stays (f : Eflag) : Build.OptStays reads (e.computeFlag b f) := by
  unfold computeFlag
  split
  · trivial
  · exact nofun
  · split
    · exact nofun
    next hp => exact (compute_stays (h _) hp).bind fun e he => optTame he

theorem computeZeroJcc_stays (kind kind' : OpKind) :
    Build.OptStays reads (computeZeroJcc b (e.operations kind) kind' jcc inv) := by
  unfold computeZeroJcc
  split
  · exact nofun
  · refine (deref_stays (h kind).result).bind fun result hr => ?_
    exact Build.stays_create_bind.2 ⟨trivial, fun zero hzero => Build.optStays_create ⟨hr, hzero⟩⟩

theorem computeFastJcc_stays : Build.OptStays reads (e.computeFastJcc b jcc inv) := by
  unfold computeFastJcc
  split
  · trivial
  next kind _ =>
    dsimp only
    split
    · split
      · refine (deref_stays (h kind).dst).bind fun dst hd => ?_
        exact (deref_stays (h kind).src).bind fun src hs => Build.optStays_create ⟨hd, hs⟩
      · split
        · exact computeZeroJcc_stays h kind kind
        · exact nofun
    · exact computeZeroJcc_stays h kind kind

theorem slowFlag_stays : Build.OptStays reads (e.slowFlag b jcc) := by
  cases jcc with
  | b | be => exact computeFlag_stays h .cf
  | l | le =>
      refine (computeFlag_stays h .sf).bind fun sf hsf => (computeFlag_stays h .of).bind
        fun of hof => ?_
      exact (deref_stays hsf).bind fun sf hsf => (deref_stays hof).bind fun of hof =>
        Build.optStays_create ⟨hsf, hof⟩
  | s => exact computeFlag_stays h .sf
  | z => exact (computeFlag_stays h .zf).bind fun _ _ => computeFlag_stays h .of
  | o => exact computeFlag_stays h .of
  | p => exact computeFlag_stays h .pf

theorem slowEqual_stays (hx : OptTame reads x) : Build.OptStays reads (e.slowEqual b jcc x) := by
  unfold slowEqual
  split
  · refine (computeFlag_stays h .zf).bind fun zf hzf => (deref_stays hx).bind fun r hr => ?_
    exact (deref_stays hzf).bind fun zf hzf => Build.optStays_create ⟨nofun, hr, hzf⟩
  · exact hx

/-- The condition of a jump is made of what is kept. -/
theorem computeJcc_stays (jcc : JccKind) (inv : Bool) :
    Build.OptStays reads (e.computeJcc b jcc inv) := by
  unfold computeJcc
  split
  · refine (computeFastJcc_stays h).bind fun r hr => ?_
    cases r with
    | some r => exact hr
    | none =>
        refine (slowFlag_stays h).bind fun x hx => (slowEqual_stays h hx).bind fun y hy => ?_
        exact slowInvert_stays hy
  · exact nofun

end Eflags

/-! ### Handlers -/

/-- What the shadow holds. -/
structure Shadow.Tame (reads : Nat → Prop) (s : Shadow) : Prop where
  regs : RegExprs.cells.Over reads False s.regs
  memory : Memory.cells.Over reads False s.memory
  eflags : s.eflags.Tame reads

def Request.Tame {Reg : Type} (reads : Nat → Prop) : Request Reg → Prop
  | addJcc e _ _ | addAddr e _ | addValue _ e _ | solveAll _ e _ => e.Tame reads
  | visitBasicBlock _ | visitCall _ | visitRet _ => True

namespace Handler

open Stateful

variable {Reg α β : Type} {σ : Session} {p : Handler Reg α} {f : α → Handler Reg β} {s : Shadow}
variable {R : α → Prop} {R' : β → Prop}

/-- From a tame shadow `p` comes to tame calls, shadows and requests, and to results with `R`. -/
def Tame (reads : Nat → Prop) (p : Handler Reg α) (R : α → Prop) : Prop :=
  ∀ s : Shadow, s.Tame reads → Build.Stays reads False (p s) fun x =>
    R x.1 ∧ x.2.1.Tame reads ∧ ∀ q ∈ x.2.2, q.Tame reads

namespace Tame

/-- **Without a division nothing is folded inexactly.** -/
theorem safe (h : Tame reads p R) (hs : s.Tame reads) (w : World) : Safe (body σ) exactly (p s) w :=
  fun m hm => foldsExactly_of_over (Build.Stays.safe σ (h s hs) w m hm) _

/-- What a run leaves and requests. -/
theorem result (h : Tame reads p R) (hs : s.Tame reads) {w w' : World} {a : α} {s' : Shadow}
    {l : List (Request Reg)} (hr : Runs (body σ) (p s) w (a, s', l) w') :
    s'.Tame reads ∧ ∀ q ∈ l, q.Tame reads :=
  ((h s hs).result hr).2

theorem ret {a : α} (h : R a) : Tame reads (pure a : Handler Reg α) R :=
  fun _ hs => ⟨h, hs, nofun⟩

theorem stop : Tame reads (Stateful.stop : Handler Reg α) R :=
  fun _ _ => trivial

theorem bind (h : Tame reads p R) (hf : ∀ a, R a → Tame reads (f a) R') :
    Tame reads (p >>= f) R' := by
  intro s hs
  refine Build.Stays.bind (h s hs) fun x ⟨hx, hs', hl⟩ => ?_
  refine Build.Stays.bind (hf x.1 hx x.2.1 hs') fun y ⟨hy, hs'', hl'⟩ => ⟨hy, hs'', fun q hq => ?_⟩
  exact (List.mem_append.1 hq).elim (hl q) (hl' q)

theorem lift {q : Build α} (h : q.Stays reads False R) :
    Tame reads (Stateful.lift q : Handler Reg α) R :=
  fun _ hs => Build.Stays.bind h fun _ ha => ⟨ha, hs, nofun⟩

theorem onRegs {g : RegExprs → Build (α × RegExprs)}
    (h : ∀ regs, RegExprs.cells.Over reads False regs →
      (g regs).Stays reads False fun x => R x.1 ∧ RegExprs.cells.Over reads False x.2) :
    Tame reads (Handler.onRegs g : Handler Reg α) R :=
  fun s hs => Build.Stays.bind (h s.regs hs.regs) fun _ hx =>
    ⟨hx.1, ⟨hx.2, hs.memory, hs.eflags⟩, nofun⟩

theorem onMemory {g : Memory → Build (α × Memory)}
    (h : ∀ mem, Memory.cells.Over reads False mem →
      (g mem).Stays reads False fun x => R x.1 ∧ Memory.cells.Over reads False x.2) :
    Tame reads (Handler.onMemory g : Handler Reg α) R :=
  fun s hs => Build.Stays.bind (h s.memory hs.memory) fun _ hx =>
    ⟨hx.1, ⟨hs.regs, hx.2, hs.eflags⟩, nofun⟩

/-- A method of the registers that only changes them. -/
theorem onRegs_unit {g : RegExprs → Build RegExprs}
    (h : ∀ regs, RegExprs.cells.Over reads False regs →
      (g regs).Stays reads False (RegExprs.cells.Over reads False)) :
    Tame reads (Handler.onRegs (fun s => do let s ← g s; return ((), s)) : Handler Reg Unit)
      fun _ => True :=
  onRegs fun regs hregs => (h regs hregs).bind fun _ h => Build.stays_ret.2 ⟨trivial, h⟩

/-- A method of the memory that only changes it. -/
theorem onMemory_unit {g : Memory → Build Memory}
    (h : ∀ mem, Memory.cells.Over reads False mem →
      (g mem).Stays reads False (Memory.cells.Over reads False)) :
    Tame reads (Handler.onMemory (fun s => do let s ← g s; return ((), s)) : Handler Reg Unit)
      fun _ => True :=
  onMemory fun mem hmem => (h mem hmem).bind fun _ h => Build.stays_ret.2 ⟨trivial, h⟩

theorem get : Tame reads (Stateful.get : Handler Reg Shadow) (Shadow.Tame reads) :=
  fun _ hs => ⟨hs, hs, nofun⟩

theorem request {q : Request Reg} (h : q.Tame reads) :
    Tame reads (Handler.request q : Handler Reg Unit) fun _ => True :=
  fun _ hs => ⟨trivial, hs, fun _ hq => List.mem_singleton.1 hq ▸ h⟩

theorem setEflags {kind : OpKind} {result : Expr} {dst src : Option Expr} (hr : result.Tame reads)
    (hd : OptTame reads dst) (hs : OptTame reads src) :
    Tame reads (Handler.setEflags kind result dst src : Handler Reg Unit) fun _ => True :=
  fun _ h => ⟨trivial, ⟨h.regs, h.memory, h.eflags.set kind hr hd hs⟩, nofun⟩

theorem invalidateEflags (kind : OpKind) :
    Tame reads (Handler.invalidateEflags kind : Handler Reg Unit) fun _ => True :=
  fun _ h => ⟨trivial, ⟨h.regs, h.memory, h.eflags⟩, nofun⟩

theorem computing {operands : Handler Reg (Option α)} {concrete : Handler Reg Unit}
    {compute : α → Handler Reg Unit} (h : Tame reads operands fun x => ∀ a, x = some a → R a)
    (hconcrete : Tame reads concrete fun _ => True)
    (hcompute : ∀ a, R a → Tame reads (compute a) fun _ => True) :
    Tame reads (Handler.computing operands concrete compute) fun _ => True := by
  refine h.bind fun x hx => ?_
  cases x with
  | none => exact hconcrete
  | some a => exact hcompute a (hx a rfl)

theorem forEach {g : Nat → Handler Reg Unit} (h : ∀ i, Tame reads (g i) fun _ => True)
    (is : List Nat) :
    Tame reads (Handler.forEach g is) fun _ => True := by
  induction is with
  | nil => exact ret trivial
  | cons i is ih => exact (h i).bind fun _ _ => ih

end Tame

end Handler

namespace Process

open Handler

variable {Reg : Type} [DecidableEq Reg] (T : Process Reg) {x y : Option Expr} {e : Expr}

/-! ### Reading and writing -/

theorem getExprFromReg_tame (r : Reg) : Tame reads (T.getExprFromReg r) (OptTame reads) :=
  .onRegs fun _ hregs => Pin.getExprFromReg_stays hregs T.context r

omit [DecidableEq Reg] in
theorem getExprFromMem_tame (addr : Addr) (size : Nat) :
    Tame reads (T.getExprFromMem addr size) (OptTame reads) :=
  .onMemory fun _ hmem => Cells.getExprs_stays hmem T.memory _

theorem getExprFromRegByte_tame (r : Reg) (off : Nat) :
    Tame reads (T.getExprFromRegByte r off) (OptTame reads) :=
  .onRegs fun regs hregs => by
    split
    · trivial
    next addr _ => exact ⟨hregs (addr + off), hregs⟩

omit [DecidableEq Reg] in
theorem getExprFromMemByte_tame (addr : Addr) :
    Tame reads (getExprFromMemByte addr : Handler Reg _) (OptTame reads) :=
  .onMemory fun _ hmem => ⟨hmem addr, hmem⟩

theorem setExprToReg_tame (r : Reg) (hx : OptTame reads x) :
    Tame reads (T.setExprToReg r x) fun _ => True :=
  .onRegs_unit fun _ hregs => Pin.setExprToReg_stays hregs r hx

omit [DecidableEq Reg] in
theorem setExprToMem_tame (addr : Addr) (size : Nat) (hx : OptTame reads x) :
    Tame reads (T.setExprToMem addr size x) fun _ => True :=
  .onMemory_unit fun _ hmem => hmem.setExprs _ hx

theorem setExprToRegByte_tame (r : Reg) (off : Nat) (hx : OptTame reads x) :
    Tame reads (T.setExprToRegByte r x off) fun _ => True :=
  .onRegs fun _ hregs => Program.Keeps.mono (setExprToRegByte_stays T r off hregs hx)
    fun _ h => ⟨trivial, h⟩

omit [DecidableEq Reg] in
theorem setExprToMemByte_tame (addr : Addr) (hx : OptTame reads x) :
    Tame reads (setExprToMemByte addr x : Handler Reg Unit) fun _ => True :=
  .onMemory_unit fun _ hmem => hmem.setExpr addr hx

theorem clearExprFromReg_tame (r : Reg) : Tame reads (T.clearExprFromReg r) fun _ => True :=
  .onRegs_unit fun _ hregs => Pin.clearExprFromReg_stays Cells.over_closed hregs r 0 none

omit [DecidableEq Reg] in
theorem clearExprFromMem_tame (addr : Addr) (size : Nat) :
    Tame reads (clearExprFromMem addr size : Handler Reg Unit) fun _ => True :=
  .onMemory_unit fun _ hmem => Cells.clearExprs_stays Cells.over_closed hmem _

omit [DecidableEq Reg] in
/-- What was read goes on as it is. -/
theorem moveByte_tame {get : Handler Reg (Option Expr)} {put : Option Expr → Handler Reg Unit}
    (hget : Tame reads get (OptTame reads))
    (hput : ∀ {x : Option Expr}, OptTame reads x → Tame reads (put x) fun _ => True) :
    Tame reads (moveByte get put) fun _ => True :=
  hget.bind fun _ hx => hput hx

/-! ### Addresses -/

omit [DecidableEq Reg] in
theorem extendPart_stays (hx : OptTame reads x) : Build.OptStays reads (T.extendPart x) := by
  cases x with
  | none => exact nofun
  | some e =>
      unfold extendPart
      dsimp only
      split
      · exact Build.optStays_create (c := .ext .zext e addrBits) (hx e rfl)
      · trivial

theorem getBaseExpr_stays (base : Reg) (disp : Addr) (hx : OptTame reads x) :
    Build.OptStays reads (T.getBaseExpr base disp x) := by
  unfold getBaseExpr
  split
  · split
    · exact Build.stays_create_bind.2
        ⟨trivial, fun d hd => Build.optStays_create ⟨nofun, hx _ rfl, hd⟩⟩
    · exact hx
  · split
    · exact Build.optStays_create trivial
    · split
      · exact Build.optStays_create trivial
      · exact nofun

theorem getIndexExpr_stays (index : Reg) (scale : Nat) (hx : OptTame reads x) :
    Build.OptStays reads (T.getIndexExpr index scale x) := by
  unfold getIndexExpr
  split
  · split
    · exact Build.stays_create_bind.2
        ⟨trivial, fun d hd => Build.optStays_create ⟨nofun, hx _ rfl, hd⟩⟩
    · exact hx
  · split
    · exact Build.optStays_create trivial
    · exact nofun

omit [DecidableEq Reg] in
theorem createAddrExpr_stays (hx : OptTame reads x) (hy : OptTame reads y) :
    Call.Stays reads False (T.createAddrExpr x y) := by
  unfold createAddrExpr
  split
  · exact next_stays ⟨nofun, hx _ rfl, hy _ rfl⟩
  · exact hy _ rfl
  · exact hx _ rfl
  · trivial

theorem addrExpr_stays (base index : Reg) (disp : Addr) (scale : Nat) (hx : OptTame reads x)
    (hy : OptTame reads y) : Build.OptStays reads (T.addrExpr base index disp scale x y) := by
  unfold addrExpr
  split
  · exact nofun
  · refine (extendPart_stays T hx).bind fun x hx => (extendPart_stays T hy).bind fun y hy => ?_
    refine (getBaseExpr_stays T base disp hx).bind fun x hx => ?_
    refine (getIndexExpr_stays T index scale hy).bind fun y hy => ?_
    exact (createAddrExpr_stays T hx hy).bind fun e he => optTame he

theorem getExprFromAddrReg_tame (r : Reg) :
    Tame reads (T.getExprFromAddrReg r) (OptTame reads) := by
  unfold getExprFromAddrReg
  split
  · exact T.getExprFromReg_tame r
  · exact .ret nofun

theorem getAddrExpr_tame (base index : Reg) (disp : Addr) (scale : Nat) :
    Tame reads (T.getAddrExpr base index disp scale) (OptTame reads) :=
  (T.getExprFromAddrReg_tame base).bind fun _ hx =>
    (T.getExprFromAddrReg_tame index).bind fun _ hy =>
    .lift (addrExpr_stays T base index disp scale hx hy)

theorem makeAddrConcrete_tame (m : MemArg Reg) : Tame reads (T.makeAddrConcrete m)
    fun _ => True := by
  refine (T.getAddrExpr_tame m.base m.index m.disp m.scale).bind fun x hx => ?_
  cases x with
  | none => exact .ret trivial
  | some e => exact .request (hx e rfl)

theorem getExprFromMemSrc_tame (m : MemArg Reg) :
    Tame reads (T.getExprFromMemSrc m) (OptTame reads) :=
  (T.makeAddrConcrete_tame m).bind fun _ _ => T.getExprFromMem_tame m.addr m.size

/-! ### Operands -/

/-- Both operands are tame. -/
def PairTame (reads : Nat → Prop) (z : Expr × Expr) : Prop :=
  z.1.Tame reads ∧ z.2.Tame reads

omit [DecidableEq Reg] in
theorem fixPair_tame {p q : Handler Reg (Option Expr)} {f g : Option Expr → Build Expr}
    (hp : Tame reads p (OptTame reads)) (hq : Tame reads q (OptTame reads))
    (hf : ∀ {x : Option Expr}, OptTame reads x → Call.Stays reads False (f x))
    (hg : ∀ {x : Option Expr}, OptTame reads x → Call.Stays reads False (g x)) :
    Tame reads (do
      let x ← p
      let y ← q
      (fixPair x y f g : Build _)) fun z => ∀ a, z = some a → PairTame reads a := by
  refine hp.bind fun x hx => hq.bind fun y hy => .lift ?_
  have hboth : Build.Stays reads False (do
      let dst ← f x
      let src ← g y
      return some (dst, src)) fun z => ∀ a, z = some a → PairTame reads a := by
    refine (hf hx).bind fun dst hdst => (hg hy).bind fun src hsrc => ?_
    rintro _ ⟨⟩
    exact ⟨hdst, hsrc⟩
  unfold fixPair
  split
  · exact nofun
  · exact hboth

omit [DecidableEq Reg] in
/-- An operand with an immediate. -/
theorem withImmediate_tame {p : Handler Reg (Option Expr)} (hp : Tame reads p (OptTame reads))
    (imm : Addr) :
    Tame reads (do
      match ← p with
      | none => return none
      | some eDst => do
          let eSrc ← T.fixImmExpr none imm eDst.bits
          return some (eDst, eSrc)) fun z => ∀ a, z = some a → PairTame reads a := by
  refine hp.bind fun x hx => ?_
  cases x with
  | none => exact .ret nofun
  | some eDst =>
      have himm : Call.Stays reads False (T.fixImmExpr none imm eDst.bits) := next_stays trivial
      refine (Tame.lift himm).bind fun eSrc hsrc => .ret ?_
      rintro _ ⟨⟩
      exact ⟨hx eDst rfl, hsrc⟩

omit [DecidableEq Reg] in
theorem fixRegExpr_tame (r : Reg) (hx : OptTame reads x) :
    Call.Stays reads False (T.fixRegExpr x r) := by
  cases x with
  | none => exact next_stays trivial
  | some e => exact hx e rfl

omit [DecidableEq Reg] in
theorem fixMemExpr_tame (addr : Addr) (size : Nat) (hx : OptTame reads x) :
    Call.Stays reads False (T.fixMemExpr x addr size) := by
  cases x with
  | none => exact next_stays trivial
  | some e => exact hx e rfl

/-! ### Instructions -/

omit [DecidableEq Reg] in
/-- A binary operation that is no division. -/
theorem instrumentBinary_tame {operands : Handler Reg (Option (Expr × Expr))} {kind : BinaryKind}
    (hkind : kind.isDivision = false) (write : Bool) {put : Option Expr → Handler Reg Unit}
    (h : Tame reads operands fun z => ∀ a, z = some a → PairTame reads a)
    (hput : ∀ {x : Option Expr}, OptTame reads x → Tame reads (put x) fun _ => True) :
    Tame reads (T.instrumentBinary operands kind write put) fun _ => True := by
  have hop : Tame reads (getOpKindBinary kind : Handler Reg OpKind) fun _ => True := by
    unfold getOpKindBinary
    split
    all_goals first | exact .ret trivial | exact .stop
  refine hop.bind fun op _ => .computing h (.invalidateEflags op) fun ⟨dst, src⟩ ⟨hd, hs⟩ => ?_
  have hres : Tame reads (T.doBinary kind op dst src) (Expr.Tame reads) := by
    have hcall : Call.Stays reads False (T.builder.createBinaryExpr kind dst src) :=
      next_stays ⟨fun hk => absurd hk (by simp [hkind]), hd, hs⟩
    exact (Tame.lift hcall).bind fun res hr =>
      (Tame.setEflags hr (optTame hd) (optTame hs)).bind fun _ _ => .ret hr
  refine hres.bind fun res hr => ?_
  cases write with
  | true => exact hput (optTame hr)
  | false => exact .ret trivial

theorem instrumentMovx_tame {operand : Handler Reg (Option Expr)}
    (h : Tame reads operand (OptTame reads))
    (kind : ExtKind) (dst : Reg) : Tame reads (T.instrumentMovx operand kind dst)
      fun _ => True := by
  refine .computing h (T.setExprToReg_tame dst nofun) fun e he => ?_
  have hcall : Call.Stays reads False (T.builder.create (.ext kind e (T.pin.regSize dst * 8))) :=
    next_stays he
  exact (Tame.lift hcall).bind fun x hx => T.setExprToReg_tame dst (optTame hx)

omit [DecidableEq Reg] in
theorem computeJcc_tame (jcc : JccKind) (inv : Bool) :
    Tame reads (T.computeJcc jcc inv : Handler Reg _) (OptTame reads) :=
  Tame.get.bind fun _ hs => .lift (Eflags.computeJcc_stays hs.eflags jcc inv)

omit [DecidableEq Reg] in
theorem instrumentJcc_tame (taken : Bool) (target : Addr) (jcc : JccKind) (inv : Bool) :
    Tame reads (T.instrumentJcc taken target jcc inv) fun _ => True := by
  refine (T.computeJcc_tame jcc inv).bind fun x hx => ?_
  cases x with
  | none => exact .ret trivial
  | some e => exact .request (hx e rfl)

end Process

end Qsym
