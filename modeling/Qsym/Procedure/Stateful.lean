import Qsym.Procedure.Program

/-!
# Qsym.Procedure.Stateful

Programs that have **a state of their own and write a log**, on top of programs that
call procedures. The log is what the outside world sees: a sequence writes the log of
its first part and then that of the second, so nothing that was written is taken back.

`Ensures` is the triple used for them. It speaks about one state before, the result, the
state after and the log written on the way. `Achieves` says besides that there is a result.
-/

namespace Procedure

/-- A program with a state `S` that writes a log of `L`, over programs with calls `C`
(answering `R`) and a shared state `W`. -/
def Stateful (C R W S L α : Type) : Type :=
  S → Program C R W (α × S × List L)

namespace Stateful

variable {C R W S L α β : Type}

/-- Return `a`. -/
def ret (a : α) : Stateful C R W S L α :=
  fun s => .ret (a, s, [])

/-- Sequential composition. -/
def bind (p : Stateful C R W S L α) (f : α → Stateful C R W S L β) : Stateful C R W S L β :=
  fun s => (p s).bind fun x => (f x.1 x.2.1).bind fun y => .ret (y.1, y.2.1, x.2.2 ++ y.2.2)

instance : Monad (Stateful C R W S L) where
  pure := ret
  bind := bind

/-- A program without a state. -/
def lift (p : Program C R W α) : Stateful C R W S L α :=
  fun s => p.bind fun a => .ret (a, s, [])

instance : MonadLift (Program C R W) (Stateful C R W S L) where
  monadLift := lift

/-- Stop the process. -/
def stop : Stateful C R W S L α :=
  fun _ => .stop

/-- The current state. -/
def get : Stateful C R W S L S :=
  fun s => .ret (s, s, [])

/-- Write to the log. -/
def tell (l : L) : Stateful C R W S L Unit :=
  fun s => .ret ((), s, [l])

/-! ### Triples -/

/-- What `p` returns, leaves and writes from `s` satisfies `Q`, as long as it only
reaches calls in `ok`. -/
def Ensures (body : C → Program C R W R) (ok : C → Prop) (p : Stateful C R W S L α) (s : S)
    (Q : α → S → List L → Prop) : Prop :=
  Yields body ok (p s) fun x => Q x.1 x.2.1 x.2.2

namespace Ensures

variable {body : C → Program C R W R} {ok : C → Prop} {s : S}
variable {p : Stateful C R W S L α} {P Q : α → S → List L → Prop} {Q' : β → S → List L → Prop}

theorem ret {a : α} (h : P a s []) : Ensures body ok (pure a) s P :=
  Yields.ret h

theorem stop : Ensures body ok (Stateful.stop : Stateful C R W S L α) s P :=
  Yields.stop

theorem get {P : S → S → List L → Prop} (h : P s s []) : Ensures body ok Stateful.get s P :=
  Yields.ret h

theorem tell {P : Unit → S → List L → Prop} {l : L} (h : P () s [l]) :
    Ensures body ok (Stateful.tell l) s P :=
  Yields.ret h

theorem mono (h : Ensures body ok p s P) (hP : ∀ a s' l, P a s' l → Q a s' l) :
    Ensures body ok p s Q :=
  Yields.mono h fun x hx => hP x.1 x.2.1 x.2.2 hx

theorem weaken {ok' : C → Prop} (h : Ensures body ok p s P) (hok : ∀ c, ok' c → ok c) :
    Ensures body ok' p s P :=
  Yields.weaken h hok

theorem and (h : Ensures body ok p s P) (h' : Ensures body ok p s Q) :
    Ensures body ok p s (fun a s' l => P a s' l ∧ Q a s' l) :=
  Yields.and h h'

/-- The rule for a sequence: its log is one log after the other. -/
theorem bind {f : α → Stateful C R W S L β} (h : Ensures body ok p s P)
    (hf : ∀ a s' l, P a s' l → Ensures body ok (f a) s' fun b s'' l' => Q' b s'' (l ++ l')) :
    Ensures body ok (p >>= f) s Q' :=
  Yields.bind h fun x hx => Yields.bind (hf x.1 x.2.1 x.2.2 hx) fun _ hy => .ret hy

theorem lift {q : Program C R W α} {P : α → Prop} (h : Yields body ok q P)
    (hQ : ∀ a, P a → Q a s []) : Ensures body ok (Stateful.lift q) s Q :=
  Yields.bind h fun a ha => .ret (hQ a ha)

/-- The rule for a program without a state that comes first. -/
theorem lift_bind {q : Program C R W α} {P : α → Prop} {f : α → Stateful C R W S L β}
    (h : Yields body ok q P) (hf : ∀ a, P a → Ensures body ok (f a) s Q') :
    Ensures body ok (Stateful.lift q >>= f) s Q' := by
  refine (lift (Q := fun a s' l => P a ∧ s' = s ∧ l = []) h fun a ha => ⟨ha, rfl, rfl⟩).bind ?_
  intro a _ _ ⟨ha, hs, hl⟩
  rw [hs, hl]
  exact hf a ha

end Ensures

/-! ### Programs that return -/

/-- `p` returns from `s`, as long as it only reaches calls in `ok`. -/
def Returns (body : C → Program C R W R) (ok : C → Prop) (p : Stateful C R W S L α)
    (s : S) : Prop :=
  Total body ok (fun _ => True) (p s) fun _ => True

/-- `Ensures`, and `p` returns. -/
def Achieves (body : C → Program C R W R) (ok : C → Prop) (p : Stateful C R W S L α) (s : S)
    (Q : α → S → List L → Prop) : Prop :=
  Total body ok (fun _ => True) (p s) fun x => Q x.1 x.2.1 x.2.2

namespace Returns

variable {body : C → Program C R W R} {ok : C → Prop} {s : S}
variable {p : Stateful C R W S L α} {P Q : α → S → List L → Prop}

theorem ret (a : α) : Returns body ok (pure a : Stateful C R W S L α) s :=
  Total.ret trivial

theorem tell (l : L) : Returns body ok (Stateful.tell l : Stateful C R W S L Unit) s :=
  Total.ret trivial

theorem lift {q : Program C R W α} {P : α → Prop} (h : Total body ok (fun _ => True) q P) :
    Returns body ok (Stateful.lift q : Stateful C R W S L α) s :=
  Total.bind h fun _ _ => .ret trivial

/-- The rule for a sequence: what is known after the first part decides the second. -/
theorem bind {f : α → Stateful C R W S L β} (h : Returns body ok p s) (hp : Ensures body ok p s P)
    (hf : ∀ a s' l, P a s' l → Returns body ok (f a) s') : Returns body ok (p >>= f) s :=
  Total.bind (Total.yields h hp) fun x hx => Total.bind (hf x.1 x.2.1 x.2.2 hx.2)
    fun _ _ => .ret trivial

/-- The rule for a program without a state that comes first. -/
theorem lift_bind {q : Program C R W α} {P : α → Prop} {f : α → Stateful C R W S L β}
    (h : Total body ok (fun _ => True) q P) (hf : ∀ a, P a → Returns body ok (f a) s) :
    Returns body ok (Stateful.lift q >>= f) s := by
  have hq : Ensures body ok (Stateful.lift q : Stateful C R W S L α) s fun a s' _ => P a ∧ s' = s :=
    Ensures.lift (Yields.of_total h) fun a ha => ⟨ha, rfl⟩
  refine (lift h).bind hq fun a s' _ ⟨ha, hs⟩ => ?_
  rw [hs]
  exact hf a ha

theorem achieves (h : Returns body ok p s) (hp : Ensures body ok p s Q) : Achieves body ok p s Q :=
  (Total.yields h hp).mono fun _ hx => hx.2

end Returns

namespace Achieves

variable {body : C → Program C R W R} {ok : C → Prop} {s : S}
variable {p : Stateful C R W S L α} {P : α → S → List L → Prop}

theorem ret {a : α} (h : P a s []) : Achieves body ok (pure a : Stateful C R W S L α) s P :=
  Total.ret h

theorem mono {Q : α → S → List L → Prop} (h : Achieves body ok p s P)
    (hP : ∀ a s' l, P a s' l → Q a s' l) : Achieves body ok p s Q :=
  Total.mono h fun x hx => hP x.1 x.2.1 x.2.2 hx

theorem returns (h : Achieves body ok p s P) : Returns body ok p s :=
  Total.mono h fun _ _ => trivial

/-- What a program achieves it ensures, as there is one run. -/
theorem ensures (h : Achieves body ok p s P) : Ensures body ok p s P :=
  Yields.of_total h

/-- The rule for fewer calls. -/
theorem weaken {ok' : C → Prop} (h : Achieves body ok p s P) (hok : ∀ c, ok' c → ok c) :
    Achieves body ok' p s P :=
  Total.weaken h hok

/-- The rule for a sequence. -/
theorem bind {f : α → Stateful C R W S L β} {Q : β → S → List L → Prop}
    (h : Achieves body ok p s P)
    (hf : ∀ a s' l, P a s' l → Achieves body ok (f a) s' fun b s'' l' => Q b s'' (l ++ l')) :
    Achieves body ok (p >>= f) s Q :=
  Total.bind h fun x hx => Total.bind (hf x.1 x.2.1 x.2.2 hx) fun _ hy => .ret hy

theorem lift {q : Program C R W α} {P : α → Prop} {Q : α → S → List L → Prop}
    (h : Total body ok (fun _ => True) q P) (hQ : ∀ a, P a → Q a s []) :
    Achieves body ok (Stateful.lift q : Stateful C R W S L α) s Q :=
  Total.bind h fun a ha => .ret (hQ a ha)

/-- The rule for a program without a state that comes first. -/
theorem lift_bind {q : Program C R W α} {P : α → Prop} {f : α → Stateful C R W S L β}
    {Q : β → S → List L → Prop} (h : Total body ok (fun _ => True) q P)
    (hf : ∀ a, P a → Achieves body ok (f a) s Q) :
    Achieves body ok (Stateful.lift q >>= f) s Q := by
  have hq : Achieves body ok (Stateful.lift q : Stateful C R W S L α) s
      fun a s' l => P a ∧ s' = s ∧ l = [] :=
    lift h fun a ha => ⟨ha, rfl, rfl⟩
  refine hq.bind fun a s' l ⟨ha, hs, hl⟩ => ?_
  rw [hs, hl]
  exact hf a ha

end Achieves

end Stateful

end Procedure
