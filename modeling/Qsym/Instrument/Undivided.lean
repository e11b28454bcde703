import Qsym.Instrument.Fetch

/-!
# Qsym.Instrument.Undivided

Handlers on a shadow **without divisions**. The builders invent none, so a handler that only
builds from what it reads comes to no division (`Undivided.safe`), and there is nothing that
could be folded inexactly. That is a matter of the text of a handler (`Undivided`), whatever it
returns.
-/

namespace Qsym

open Procedure Qsym.Expr

/-! ### Cells -/

section Cells

variable {S A : Type} {C : Cells S A} {b : ExprBuilder} {reads : Nat → Prop} {divides : Prop}

/-- The expressions in the cells satisfy `P`. -/
def Cells.All (C : Cells S A) (P : Expr → Prop) (s : S) : Prop :=
  ∀ a e, C.peek s a = some e → P e

/-- The expressions in the cells are over the bytes `reads`, and divide only if `divides`. -/
def Cells.Over (C : Cells S A) (reads : Nat → Prop) (divides : Prop) (s : S) : Prop :=
  ∀ a e, C.peek s a = some e → e.Over reads divides

/-- What holds is not lost with an expression. -/
def Cells.Closed (C : Cells S A) (W : S → Prop) : Prop :=
  ∀ s a s', W s → C.poke s a none = some s' → W s'

section All

variable {P : Expr → Prop} {s s' : S} {a : A} {x : Option Expr}

theorem Cells.All.poke (hs : C.All P s) (hx : ∀ e, x = some e → P e)
    (hpoke : C.poke s a x = some s') :
    C.All P s' := by
  intro a' e he
  by_cases ha : a' = a
  · subst ha
    exact hx e ((C.peek_poke hpoke).symm.trans he)
  · exact hs a' e ((C.peek_poke_ne hpoke ha).symm.trans he)

theorem Cells.all_closed : C.Closed (C.All P) :=
  fun _ _ _ hs hpoke => hs.poke (x := none) nofun hpoke

theorem Cells.over_closed : C.Closed (C.Over reads divides) :=
  Cells.all_closed

theorem Cells.All.setExpr (hs : C.All P s) (a : A) (hx : ∀ e, x = some e → P e) :
    (C.setExpr s a x).Stays reads divides (C.All P) := by
  have hclear : (C.clearExpr s a).Stays reads divides (C.All P) :=
    Cells.clearExpr_stays (Cells.all_closed s a · hs) hs
  refine hclear.bind fun s' hs' => ?_
  cases x with
  | none => exact hs'
  | some e => exact Cells.assign_stays fun _ hpoke => hs'.poke hx hpoke

end All

theorem Cells.Over.setExpr {s : S} (hs : C.Over reads divides s) (a : A) {x : Option Expr}
    (hx : ∀ e, x = some e → e.Over reads divides) :
    (C.setExpr s a x).Stays reads divides (C.Over reads divides) :=
  Cells.All.setExpr hs a hx

theorem Cells.Over.setExprs {s : S} (hs : C.Over reads divides s) (as : List A) {x : Option Expr}
    (hx : ∀ e, x = some e → e.Over reads divides) :
    (C.setExprs b s as x).Stays reads divides (C.Over reads divides) := by
  have hbytes (e : Expr) (he : e.Over reads divides) (i : Nat) :
      (C.setBytes b e s i as).Stays reads divides (C.Over reads divides) := by
    induction as generalizing s i with
    | nil => exact hs
    | cons a as ih =>
        refine Build.stays_create_bind.2 ⟨he, fun y hy => ?_⟩
        have hput : ∀ z, some y = some z → z.Over reads divides := by
          rintro _ ⟨⟩
          exact hy
        exact (hs.setExpr a hput).bind fun s' hs' => ih hs' (i + 1)
  cases x with
  | none => exact Cells.clearExprs_stays Cells.over_closed hs as
  | some e => exact hbytes e (hx e rfl) 0

theorem createConcatList_stays {e : Expr} {es : List Expr} (he : e.Over reads divides)
    (hes : ∀ x ∈ es, x.Over reads divides) :
    Call.Stays reads divides (SymbolicExprBuilder.createConcatList b e es) := by
  induction es generalizing e with
  | nil => exact he
  | cons x es ih =>
      obtain ⟨hx, htail⟩ := List.forall_mem_cons.1 hes
      exact Build.stays_create_bind.2 ⟨⟨he, hx⟩, fun e' he' => ih he' htail⟩

theorem pushBytes_stays {cells : List (Option Expr × BitVec 8)} {es : List Expr}
    (hcells : ∀ c ∈ cells, ∀ e, c.1 = some e → e.Over reads divides)
    (hes : ∀ x ∈ es, x.Over reads divides) :
    (Cells.pushBytes b cells es).Stays reads divides fun es => ∀ x ∈ es, x.Over reads divides := by
  induction cells generalizing es with
  | nil => exact hes
  | cons c cells ih =>
      obtain ⟨hc, htail⟩ := List.forall_mem_cons.1 hcells
      obtain ⟨x, v⟩ := c
      cases x with
      | some e => exact ih htail (List.forall_mem_cons.2 ⟨hc e rfl, hes⟩)
      | none =>
          refine Build.stays_create_bind.2 ⟨trivial, fun e he => ?_⟩
          exact ih htail (List.forall_mem_cons.2 ⟨he, hes⟩)

theorem Cells.getExprs_stays {s : S} (hs : C.Over reads divides s) (machine : A → BitVec 8)
    (as : List A) : (C.getExprs b s machine as).Stays reads divides fun x =>
      (∀ e, x.1 = some e → e.Over reads divides) ∧ C.Over reads divides x.2 := by
  have hcells : ∀ c ∈ as.map (fun a => (C.peek s a, machine a)), ∀ e, c.1 = some e →
      e.Over reads divides := by
    intro c hc e he
    obtain ⟨a, -, rfl⟩ := List.mem_map.1 hc
    exact hs a e he
  have hconcat (es : List Expr) (hes : ∀ x ∈ es, x.Over reads divides) :
      Call.Stays reads divides (b.createConcatAll es) := by
    cases es with
    | nil => trivial
    | cons e es =>
        obtain ⟨he, htail⟩ := List.forall_mem_cons.1 hes
        exact createConcatList_stays he htail
  unfold Cells.getExprs
  split
  next =>
      have hnil : ∀ x ∈ ([] : List Expr), x.Over reads divides := fun x hx => nomatch hx
      refine (pushBytes_stays hcells hnil).bind fun es hes => ?_
      refine (hconcat es hes).bind fun e he => ?_
      split
      next =>
          exact (Cells.clearExprs_stays Cells.over_closed hs as).bind fun s' hs' => ⟨nofun, hs'⟩
      next =>
          refine ⟨?_, hs⟩
          rintro _ ⟨⟩
          exact he
  next => exact ⟨nofun, hs⟩

end Cells

/-! ### Registers -/

namespace Pin

variable {Reg : Type} [DecidableEq Reg] {P : Pin Reg} {b : ExprBuilder} {s : RegExprs}
variable {reads : Nat → Prop} {divides : Prop}

theorem getExprFromReg_stays (hs : RegExprs.cells.Over reads divides s) (ctx : Reg → Nat → BitVec 8)
    (r : Reg) : (P.getExprFromReg b s ctx r).Stays reads divides fun x =>
      (∀ e, x.1 = some e → e.Over reads divides) ∧ RegExprs.cells.Over reads divides x.2 := by
  have hcells (addr size : Nat) :
      (P.getExprFromRegAddr b s ctx addr size).Stays reads divides fun x =>
      (∀ e, x.1 = some e → e.Over reads divides) ∧ RegExprs.cells.Over reads divides x.2 := by
    unfold Pin.getExprFromRegAddr
    split
    next =>
        split
        next => trivial
        next => exact Cells.getExprs_stays hs _ _
    next => exact ⟨nofun, hs⟩
  unfold Pin.getExprFromReg
  split
  next => trivial
  next addr haddr =>
      split
      next => exact ⟨hs addr, hs⟩
      next => exact hcells addr _
      next => exact hcells addr _
      next => exact hcells addr _
      next => exact hcells addr _
      next => exact hcells addr _
      next => trivial

section Clearing

variable {W : RegExprs → Prop} (hW : RegExprs.cells.Closed W) (hs : W s)
include hW hs

theorem clearExprFromReg_stays (r : Reg) (off : Nat) (size : Option Nat) :
    (P.clearExprFromReg s r off size).Stays reads divides W := by
  unfold Pin.clearExprFromReg
  split
  next => trivial
  next =>
      dsimp only
      split
      next => exact Cells.clearExpr_stays (hW _ _ · hs) hs
      next => exact Cells.clearExprs_stays hW hs _

theorem zeroExtend_stays (r : Reg) : (P.zeroExtend s r).Stays reads divides W := by
  have hupper (full : Reg) (i n : Nat) : (P.clearUpperHalf full s i n).Stays reads divides W := by
    induction n generalizing s i with
    | zero => exact hs
    | succ n ih =>
        exact (clearExprFromReg_stays hW hs full i (some 1)).bind fun s' hs' => ih hs' (i + 1)
  unfold Pin.zeroExtend
  split
  next => exact hupper _ 4 4
  next => exact hs

/-- A register that gets no expression is cleared. -/
theorem setExprToReg_none_stays (r : Reg) : (P.setExprToReg b s r none).Stays reads divides W := by
  have hclear (s' : RegExprs) (hs' : W s') (as : List Nat) :
      (RegExprs.cells.setExprs b s' as none).Stays reads divides W :=
        Cells.clearExprs_stays hW hs' as
  unfold Pin.setExprToReg
  refine (zeroExtend_stays hW hs r).bind fun s' hs' => ?_
  split
  next => trivial
  next addr haddr =>
      split
      next => exact (Cells.clearExpr_stays (hW _ _ · hs') hs').bind fun _ h => h
      next => exact hclear s' hs' _
      next => exact hclear s' hs' _
      next => exact hclear s' hs' _
      next => exact hclear s' hs' _
      next => exact hclear s' hs' _
      next => trivial

end Clearing

theorem setExprToReg_stays (hs : RegExprs.cells.Over reads divides s) (r : Reg) {x : Option Expr}
    (hx : ∀ e, x = some e → e.Over reads divides) :
    (P.setExprToReg b s r x).Stays reads divides (RegExprs.cells.Over reads divides) := by
  unfold Pin.setExprToReg
  refine (zeroExtend_stays Cells.over_closed hs r).bind fun s' hs' => ?_
  split
  next => trivial
  next addr haddr =>
      split
      next => exact hs'.setExpr addr hx
      next => exact hs'.setExprs _ hx
      next => exact hs'.setExprs _ hx
      next => exact hs'.setExprs _ hx
      next => exact hs'.setExprs _ hx
      next => exact hs'.setExprs _ hx
      next => trivial

end Pin

/-- No expression of the shadow holds a division. -/
structure Shadow.Undivided (s : Shadow) : Prop where
  regs : RegExprs.cells.Over (fun _ => True) False s.regs
  memory : Memory.cells.Over (fun _ => True) False s.memory

namespace Handler

open Stateful

variable {Reg α β : Type} {σ : Session} {p : Handler Reg α} {s : Shadow}
variable {P : α → Shadow → Prop} {Q : β → Shadow → Prop}

/-- The text of `p` comes to no division from `s`, and `P` holds of its results. -/
def Undivided (p : Handler Reg α) (s : Shadow) (P : α → Shadow → Prop) : Prop :=
  Build.Stays (fun _ => True) False (p s) fun x => P x.1 x.2.1

/-- **Without a division nothing is folded inexactly.** -/
theorem Undivided.safe (h : Undivided p s P) (w : World) : Safe (body σ) exactly (p s) w :=
  fun m hm => foldsExactly_of_over (Build.Stays.safe σ h w m hm) _

namespace Undivided

theorem ret {a : α} (h : P a s) : Undivided (pure a : Handler Reg α) s P :=
  h

theorem bind {f : α → Handler Reg β} (h : Undivided p s P)
    (hf : ∀ a s', P a s' → Undivided (f a) s' Q) : Undivided (p >>= f) s Q :=
  Build.Stays.bind h fun x hx => Build.Stays.bind (hf x.1 x.2.1 hx) fun _ hy => hy

theorem onRegs {f : RegExprs → Build (α × RegExprs)} {R : α × RegExprs → Prop}
    (h : (f s.regs).Stays (fun _ => True) False R)
    (hR : ∀ x, R x → P x.1 { s with regs := x.2 }) :
    Undivided (Handler.onRegs f : Handler Reg α) s P :=
  Build.Stays.bind h fun x hx => hR x hx

/-- A part of the builder comes first. -/
theorem lift_bind {q : Build α} {R : α → Prop} {f : α → Handler Reg β}
    (h : q.Stays (fun _ => True) False R) (hf : ∀ a, R a → Undivided (f a) s Q) :
    Undivided ((Stateful.lift q : Handler Reg α) >>= f) s Q :=
  (show Undivided (Stateful.lift q : Handler Reg α) s fun a s' => R a ∧ s' = s from
    Build.Stays.bind h fun _ ha => ⟨ha, rfl⟩).bind fun a _ ⟨ha, hs⟩ => hs ▸ hf a ha

end Undivided

end Handler

/-! ### Parts of handlers -/

namespace Process

open Handler

variable {Reg : Type} [DecidableEq Reg] {T : Process Reg} {s : Shadow} {x y : Option Expr}

/-- What has been read, if there is something. -/
abbrev ReadOver (x : Option Expr) : Prop :=
  ∀ e, x = some e → e.Over (fun _ => True) False

theorem getExprFromReg_undivided (hs : s.Undivided) (r : Reg) :
    Undivided (T.getExprFromReg r) s fun x s' => ReadOver x ∧ s'.Undivided :=
  .onRegs (Pin.getExprFromReg_stays hs.regs T.context r) fun _ hx => ⟨hx.1, hx.2, hs.memory⟩

omit [DecidableEq Reg] in
theorem fixRegExpr_stays (hx : ReadOver x) (r : Reg) :
    Call.Stays (fun _ => True) False (T.fixRegExpr x r) := by
  cases x with
  | some e => exact hx e rfl
  | none => exact next_stays trivial

omit [DecidableEq Reg] in
theorem fixPair_stays {f g : Option Expr → Build Expr}
    (hf : Call.Stays (fun _ => True) False (f x)) (hg : Call.Stays (fun _ => True) False (g y)) :
    (fixPair x y f g).Stays (fun _ => True) False fun z => ∀ pair, z = some pair →
      pair.1.Over (fun _ => True) False ∧ pair.2.Over (fun _ => True) False := by
  have hboth : Build.Stays (fun _ => True) False (do
      let dst ← f x
      let src ← g y
      return some (dst, src)) fun z => ∀ pair, z = some pair →
        pair.1.Over (fun _ => True) False ∧ pair.2.Over (fun _ => True) False := by
    refine hf.bind fun dst hdst => hg.bind fun src hsrc => ?_
    rintro _ ⟨⟩
    exact ⟨hdst, hsrc⟩
  unfold fixPair
  split
  next => exact nofun
  next => exact hboth

theorem setExprToReg_undivided (hs : s.Undivided) {e : Expr} (he : e.Over (fun _ => True) False)
    (r : Reg) : Undivided (T.setExprToReg r (some e)) s fun _ s' => s'.Undivided := by
  have hx : ReadOver (some e) := by
    rintro _ ⟨⟩
    exact he
  have hset := (Pin.setExprToReg_stays (P := T.pin.toPin) (b := T.builder) hs.regs r hx).bind
    (f := fun regs => (return ((), regs) : Build (Unit × RegExprs)))
    (Q := fun x => RegExprs.cells.Over (fun _ => True) False x.2) fun _ h => Build.stays_ret.2 h
  exact .onRegs (f := fun s => do
    let s ← T.pin.setExprToReg T.builder s r (some e)
    return ((), s)) hset fun _ h => ⟨h, hs.memory⟩

end Process

end Qsym
