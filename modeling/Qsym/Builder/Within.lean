import Qsym.Builder.Parts
import Qsym.Expr.Over

/-!
# Qsym.Builder.Within

The builders invent nothing: a call on expressions **over** some input bytes comes
to calls and results over the same bytes, and divides only if an operand does.
Nothing is assumed about sorts, and the pruning decisions do not matter, since an
evaluated expression reads nothing at all.
-/

namespace Qsym

open Procedure Qsym.Expr

variable {reads : Nat → Prop} {divides : Prop}

/-- The program stays over the bytes `reads`: its calls do, and its results satisfy
`P` if those of its calls do. -/
abbrev Build.Stays (reads : Nat → Prop) (divides : Prop) {α : Type} (p : Build α)
    (P : α → Prop) : Prop :=
  p.Keeps (fun m => m.call.plain.Over reads divides) (Expr.Over reads divides) P

namespace Build

variable {α β : Type} {P : α → Prop}

@[simp] theorem stays_ret {a : α} : Stays reads divides (.ret a) P ↔ P a :=
  Iff.rfl

@[simp] theorem stays_stop : Stays reads divides (.stop : Build α) P :=
  trivial

@[simp] theorem stays_create {b : ExprBuilder} {c : Call} {P : Expr → Prop} :
    Stays reads divides (b.create c) P ↔
      c.plain.Over reads divides ∧ ∀ r, r.Over reads divides → P r :=
  Iff.rfl

@[simp] theorem stays_create_bind {b : ExprBuilder} {c : Call} {f : Expr → Build α} :
    Stays reads divides ((b.create c).bind f) P ↔
      c.plain.Over reads divides ∧ ∀ r, r.Over reads divides → Stays reads divides (f r) P :=
  Iff.rfl

theorem Stays.bind {Q : β → Prop} {p : Build α} {f : α → Build β} (h : Stays reads divides p P)
    (hf : ∀ a, P a → Stays reads divides (f a) Q) : Stays reads divides (p >>= f) Q :=
  Program.Keeps.bind h hf

end Build

open Build

/-- What a body owes: it stays over the bytes of its operands. -/
abbrev Call.Stays (reads : Nat → Prop) (divides : Prop) (p : Build Expr) : Prop :=
  p.Stays reads divides (Expr.Over reads divides)

theorem makeShared_stays {c : Call} (h : c.plain.Over reads divides) :
    Call.Stays reads divides (.makeShared c) :=
  makeShared_keeps fun ref => by cases c <;> exact h

/-- Being over some bytes is a matter of the parts. -/
theorem parts_over : Parts divides (Expr.Over reads divides) where
  bool _ _ := trivial
  constant _ _ _ := trivial
  concat _ _ _ := Iff.rfl
  extract _ _ _ _ h := h
  ext _ _ _ _ := Iff.rfl
  unary _ _ _ := Iff.rfl
  binary _ _ _ _ := Iff.rfl
  compare _ _ _ _ := Iff.rfl
  ite _ _ _ _ := Iff.rfl
  shallow _ _ h he := h.of_equalShallowly he

/-- A call is over the bytes its operands are over. -/
theorem over_plain {c : Call} (h : c.On divides (Expr.Over reads divides)) :
    c.plain.Over reads divides := by
  cases c <;> exact h

theorem on_over {c : Call} (h : c.plain.Over reads divides) :
    c.On divides (Expr.Over reads divides) := by
  cases c <;> exact h

/-- Handing a call on. -/
theorem next_stays {next : ExprBuilder} {c : Call} (h : c.plain.Over reads divides) :
    Call.Stays reads divides (next.create c) :=
  keeps_handOn h

/-! ### Evaluation and pruning -/

theorem checked_stays {c : Call} (h : c.plain.Over reads divides) :
    Call.Stays reads divides (CEB.create c >>= checkExpr) := by
  refine stays_create_bind.2 ⟨h, fun e he => ?_⟩
  cases e <;> trivial

theorem evaluate_stays (σ : Session) {e : Expr} (h : e.Over reads divides) :
    Call.Stays reads divides (e.evaluate σ) := by
  induction e with
  | bool _ b => exact makeShared_stays (c := .bool b) h
  | constant _ n v => exact makeShared_stays (c := .constant n v) h
  | read i =>
      simp only [evaluate]
      split
      next v _ => exact makeShared_stays (c := .constant 8 v) trivial
      next => trivial
  | extract _ e i b ih =>
      exact (ih h).bind fun x hx => checked_stays (c := .extract x i b) hx
  | ext _ k e b ih => exact (ih h).bind fun x hx => checked_stays (c := .ext k x b) hx
  | unary _ k e ih => exact (ih h).bind fun x hx => checked_stays (c := .unary k x) hx
  | concat _ l r ihl ihr =>
      exact (ihl h.1).bind fun x hx => (ihr h.2).bind fun y hy =>
        checked_stays (c := .concat x y) ⟨hx, hy⟩
  | binary _ k l r ihl ihr =>
      exact (ihl h.2.1).bind fun x hx => (ihr h.2.2).bind fun y hy =>
        checked_stays (c := .binary k x y) ⟨h.1, hx, hy⟩
  | compare _ k l r ihl ihr =>
      exact (ihl h.1).bind fun x hx => (ihr h.2).bind fun y hy =>
        checked_stays (c := .compare k x y) ⟨hx, hy⟩
  | ite _ c t f ihc iht ihf =>
      exact (ihc h.1).bind fun x hx => (iht h.2.1).bind fun y hy => (ihf h.2.2).bind fun z hz =>
        checked_stays (c := .ite x y z) ⟨hx, hy, hz⟩

theorem prune_stays (σ : Session) (next : ExprBuilder) {c : Call}
    (h : c.plain.Over reads divides) :
    Call.Stays reads divides (PruneExprBuilder.body σ next c) := by
  have hprune : Call.Stays reads divides (next.create c >>= PruneExprBuilder.prune σ) := by
    refine stays_create_bind.2 ⟨h, fun e he w => ?_⟩
    show Call.Stays reads divides (if σ.isInteresting w.tick then .ret e else e.evaluate σ)
    split
    · exact he
    · exact evaluate_stays σ he
  cases c with
  | ext | unary | binary | ite => exact hprune
  | _ => exact next_stays h

/-- **The builders invent nothing.** -/
theorem body_stays (σ : Session) (m : MethodCall) (h : m.call.plain.Over reads divides) :
    Call.Stays reads divides (body σ m) := by
  obtain ⟨_ | ⟨layer, next⟩, c⟩ := m
  · trivial
  · have hon := on_over h
    have hcall (c : Call) (h : c.On divides (Expr.Over reads divides)) :
        c.plain.Over reads divides := over_plain h
    cases layer with
    | base => exact base_keeps hon fun ref => by cases c <;> exact h
    | cache => exact cache_keeps parts_over σ h
    | constantFolding =>
        exact ConstantFoldingExprBuilder.body_keeps (fun _ _ => trivial) (fun _ => trivial) hon
          fun _ => h
    | common =>
        exact CommonSimplifyExprBuilder.body_keeps parts_over hcall
          (fun c _ => hcall c) (fun _ _ _ hv _ => hv) hon
    | symbolic => exact SymbolicExprBuilder.body_keeps parts_over hcall hcall hon
    | commutative => exact CommutativeExprBuilder.body_keeps hcall hcall hon
    | prune => exact prune_stays σ next h

section Runs

variable {σ : Session} {α : Type} {p : Build α} {P : α → Prop} {w w' : World}

/-- What a run returns. -/
theorem Build.Stays.result (h : p.Stays reads divides P) {a : α}
    (hr : Runs (body σ) p w a w') : P a :=
  Program.Keeps.result (body_stays σ) h hr

/-- What a run reaches. -/
theorem Build.Stays.safe (σ : Session) (h : p.Stays reads divides P) (w : World) :
    Safe (body σ) (fun m => m.call.plain.Over reads divides) p w :=
  Program.Keeps.safe (body_stays σ) h w

end Runs

/-- What a call builds reads no byte that the plain node does not read. -/
theorem yields_getDeps {σ : Session} {ok : MethodCall → Prop} {b : ExprBuilder} {c : Call} :
    Yields (body σ) ok (b.create c) (fun e => e.getDeps ⊆ c.plain.getDeps) := by
  have hover : c.plain.Over (· ∈ c.plain.getDeps) True := over_iff_getDeps.2 fun i hi => hi
  exact (Yields.of_keeps (body_stays σ) (next_stays hover)).mono fun e he =>
    over_iff_getDeps.1 he

end Qsym
