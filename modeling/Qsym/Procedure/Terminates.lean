import Mathlib.Logic.Relation
import Qsym.Procedure.Program

/-!
# Qsym.Procedure.Terminates

**Termination** of programs of procedures, as a logic of its own. The triple
`Terminates` is stronger than total correctness in what it leaves open: whenever the
program looks at the state it may find any state at all, and a call may give any answer
that is not excluded. A derivation is therefore about the text alone, and it orders the
calls: from it follows that every execution ends (`Terminates.ends`), that an execution
that does not stop returns what it should (`Terminates.total`), and that no call is come
to again from inside itself, in whatever states the two are made
(`Terminates.not_reaches`).
-/

namespace Procedure

variable {C R S α β : Type}

/-- Executing `p` from `s` comes to an end: it returns, or it stops. -/
inductive Ends (body : C → Program C R S R) : {α : Type} → Program C R S α → S → Prop
  | ret {α : Type} {a : α} {s : S} : Ends body (.ret a) s
  | stop {α : Type} {s : S} : Ends body (.stop : Program C R S α) s
  | call {α : Type} {c : C} {k : R → Program C R S α} {s : S} :
      Ends body (body c) s → (∀ r s', Runs body (body c) s r s' → Ends body (k r) s') →
        Ends body (.call c k) s
  | get {α : Type} {k : S → Program C R S α} {s : S} : Ends body (k s) s → Ends body (.get k) s
  | set {α : Type} {p : Program C R S α} {s s' : S} : Ends body p s' → Ends body (.set s' p) s

/-- `p` itself makes the call `c`, if it finds suitable states and its calls give answers
that they can give. -/
inductive Makes (body : C → Program C R S R) : {α : Type} → Program C R S α → C → Prop
  | get {α : Type} {k : S → Program C R S α} {s : S} {c : C} :
      Makes body (k s) c → Makes body (.get k) c
  | set {α : Type} {p : Program C R S α} {s : S} {c : C} : Makes body p c → Makes body (.set s p) c
  | here {α : Type} {c : C} {k : R → Program C R S α} : Makes body (.call c k) c
  | after {α : Type} {c c' : C} {k : R → Program C R S α} {s s' : S} {r : R} :
      Runs body (body c) s r s' → Makes body (k r) c' → Makes body (.call c k) c'

/-- `c'` is a call that `c` makes. -/
def CalledBy (body : C → Program C R S R) (c' c : C) : Prop :=
  Makes body (body c) c'

/-- What is reached is called, from call to call, by something that is made. -/
theorem Reaches.makes {body : C → Program C R S R} {p : Program C R S α} {s : S} {c : C}
    (h : Reaches body p s c) :
    ∃ c₀, Makes body p c₀ ∧ Relation.ReflTransGen (CalledBy body) c c₀ := by
  induction h with
  | get _ ih =>
      obtain ⟨c₀, hm, hn⟩ := ih
      exact ⟨c₀, .get hm, hn⟩
  | set _ ih =>
      obtain ⟨c₀, hm, hn⟩ := ih
      exact ⟨c₀, .set hm, hn⟩
  | here => exact ⟨_, .here, .refl⟩
  | inside _ ih =>
      obtain ⟨c₀, hm, hn⟩ := ih
      exact ⟨_, .here, hn.tail hm⟩
  | after hr _ ih =>
      obtain ⟨c₀, hm, hn⟩ := ih
      exact ⟨c₀, .after hr hm, hn⟩

/-- As long as `p` only makes calls in `ok` it comes to an end, in a value that satisfies
`Q` or, if `stops`, by stopping. Of the states that it finds nothing is known, of the
answer to a call what the execution of the call shows. -/
inductive Terminates (body : C → Program C R S R) (stops : Prop) (ok : C → Prop) :
    {α : Type} → Program C R S α → (α → Prop) → Prop
  | ret {α : Type} {a : α} {Q : α → Prop} : Q a → Terminates body stops ok (.ret a) Q
  | stop {α : Type} {Q : α → Prop} : stops → Terminates body stops ok .stop Q
  | call {α : Type} {c : C} {k : R → Program C R S α} {P : R → Prop} {Q : α → Prop} :
      (ok c → Terminates body stops ok (body c) P) →
        (∀ r, P r → Terminates body stops ok (k r) Q) → Terminates body stops ok (.call c k) Q
  | get {α : Type} {k : S → Program C R S α} {Q : α → Prop} :
      (∀ s, Terminates body stops ok (k s) Q) → Terminates body stops ok (.get k) Q
  | set {α : Type} {s : S} {p : Program C R S α} {Q : α → Prop} :
      Terminates body stops ok p Q → Terminates body stops ok (.set s p) Q

namespace Terminates

variable {body : C → Program C R S R} {stops : Prop} {ok : C → Prop}
variable {p : Program C R S α} {P : α → Prop} {Q : β → Prop}

/-! ### The rules -/

theorem mono {P' : α → Prop} (h : Terminates body stops ok p P) (hP : ∀ a, P a → P' a) :
    Terminates body stops ok p P' := by
  induction h with
  | ret ha => exact .ret (hP _ ha)
  | stop hs => exact .stop hs
  | call hc _ _ ih => exact .call hc fun r hr => ih r hr hP
  | get _ ih => exact .get fun s => ih s hP
  | set _ ih => exact .set (ih hP)

/-- The rule for a sequence. -/
theorem bind {f : α → Program C R S β} (h : Terminates body stops ok p P)
    (hf : ∀ a, P a → Terminates body stops ok (f a) Q) : Terminates body stops ok (p.bind f) Q := by
  induction h with
  | ret ha => exact hf _ ha
  | stop hs => exact .stop hs
  | call hc _ _ ih => exact .call hc fun r hr => ih r hr hf
  | get _ ih => exact .get fun s => ih s hf
  | set _ ih => exact .set (ih hf)

/-- The rule for a call that is the whole program. -/
theorem tail {c : C} {Q : R → Prop} (h : ok c → Terminates body stops ok (body c) Q) :
    Terminates body stops ok (.call c .ret) Q :=
  .call h fun _ hr => .ret hr

/-- The text of a call. -/
theorem body_of_tail {c : C} {Q : R → Prop}
    (h : Terminates body stops ok (.call c .ret) Q) (hc : ok c) :
    Terminates body stops ok (body c) Q := by
  cases h with
  | call hb hk =>
      refine (hb hc).mono fun r hr => ?_
      cases hk r hr with
      | ret hq => exact hq

/-- Both postconditions hold. -/
theorem and {P' : α → Prop} (h : Terminates body stops ok p P)
    (h' : Terminates body stops ok p P') : Terminates body stops ok p (fun a => P a ∧ P' a) := by
  induction h with
  | ret ha =>
      cases h' with
      | ret ha' => exact .ret ⟨ha, ha'⟩
  | stop hs => exact .stop hs
  | call _ _ ihc ih =>
      cases h' with
      | call hc' hk' =>
          exact .call (fun hc => ihc hc (hc' hc)) fun r hr => ih r hr.1 (hk' r hr.2)
  | get _ ih =>
      cases h' with
      | get h' => exact .get fun s => ih s (h' s)
  | set _ ih =>
      cases h' with
      | set h' => exact .set (ih h')

/-- What the text of a program shows. -/
theorem keeps {ok' : C → Prop} {good : R → Prop} {P' : α → Prop}
    (hbody : ∀ c, ok' c → (body c).Keeps ok' good good) (h : Terminates body stops ok p P)
    (hp : p.Keeps ok' good P') : Terminates body stops ok p (fun a => P' a ∧ P a) := by
  induction h with
  | ret ha => exact .ret ⟨hp, ha⟩
  | stop hs => exact .stop hs
  | call _ _ ihc ih =>
      exact .call (fun hc => ihc hc (hbody _ hp.1)) fun r hr => ih r hr.2 (hp.2 r hr.1)
  | get _ ih => exact .get fun s => ih s (hp s)
  | set _ ih => exact .set (ih hp)

/-- Calls that do nothing but stop need not be excluded. -/
theorem of_stops (hs : ∀ c, ¬ ok c → Terminates body stops (fun _ => True) (body c) fun _ => False)
    (h : Terminates body stops ok p P) : Terminates body stops (fun _ => True) p P := by
  induction h with
  | ret ha => exact .ret ha
  | stop hst => exact .stop hst
  | @call _ c k P₁ _ _ _ ihc ih =>
      by_cases hc : ok c
      · exact .call (fun _ => ihc hc) ih
      · exact .call (fun _ => hs c hc) fun _ hr => hr.elim
  | get _ ih => exact .get ih
  | set _ ih => exact .set ih

/-! ### What it says about executions -/

theorem yields (h : Terminates body stops ok p P) : Yields body ok p P := by
  induction h with
  | ret ha => exact .ret ha
  | stop => exact .stop
  | call _ _ ihc ih =>
      intro s a s' hsafe hr
      obtain ⟨r, s₁, hcall, hk⟩ := Runs.call_iff.1 hr
      have hP := ihc (hsafe _ .here) s r s₁ (fun c hc => hsafe c (.inside hc)) hcall
      exact ih r hP s₁ a s' (fun c hc => hsafe c (.after hcall hc)) hk
  | get _ ih => exact .get ih
  | set _ ih => exact .set ih

/-- A program that never stops returns. -/
theorem total (h : Terminates body False ok p P) : Total body ok (fun _ => True) p P := by
  induction h with
  | ret ha => exact .ret ha
  | stop hs => exact hs.elim
  | @call _ c k P₁ _ _ _ ihc ih =>
      have hcall : Total body ok (fun _ => True) (.call c .ret) P₁ := Total.call ihc
      exact hcall.bind ih
  | get _ ih => exact .get fun s _ => ih s
  | set _ ih => exact .set trivial ih

section Unrestricted

variable (h : Terminates body stops (fun _ => True) p P)

include h

theorem ends (s : S) : Ends body p s := by
  induction h generalizing s with
  | ret => exact .ret
  | stop => exact .stop
  | call hc _ ihc ih =>
      exact .call (ihc trivial s) fun r s' hr => ih r ((hc trivial).yields.result hr) s'
  | get _ ih => exact .get (ih s s)
  | set _ ih => exact .set (ih _)

/-- The calls are well-founded. -/
theorem acc {c : C} (hc : Makes body p c) : Acc (CalledBy body) c := by
  induction h generalizing c with
  | ret => cases hc
  | stop => cases hc
  | call hcall _ ihc ih =>
      cases hc with
      | here => exact .intro _ fun c' hc' => ihc trivial hc'
      | after hr hk => exact ih _ ((hcall trivial).yields.result hr) hk
  | get _ ih => cases hc with | get hc => exact ih _ hc
  | set _ ih => cases hc with | set hc => exact ih hc

/-- There is no infinite chain of calls. -/
theorem no_chain {f : Nat → C} (h0 : Makes body p (f 0)) :
    ¬ ∀ n, CalledBy body (f (n + 1)) (f n) := by
  intro hf
  have hacc : ∀ c, Acc (CalledBy body) c → ∀ n, f n ≠ c := by
    intro c hc
    induction hc with
    | intro c _ ih =>
        rintro n rfl
        exact ih (f (n + 1)) (hf n) (n + 1) rfl
  exact hacc (f 0) (h.acc h0) 0 rfl

/-- **No call is come to again from inside itself.** -/
theorem not_reaches {s s' : S} {c : C} (hc : Reaches body p s c) :
    ¬ Reaches body (body c) s' c := by
  intro hagain
  obtain ⟨c₀, hmade, hchain⟩ := hc.makes
  obtain ⟨c₁, hmade₁, hchain₁⟩ := hagain.makes
  have hcycle : Relation.TransGen (CalledBy body) c c := .tail' hchain₁ hmade₁
  have hacc : Acc (CalledBy body) c := by
    rcases Relation.reflTransGen_iff_eq_or_transGen.1 hchain with rfl | hchain
    · exact h.acc hmade
    · exact (h.acc hmade).inv_of_transGen hchain
  have hirrefl : ∀ c, Acc (Relation.TransGen (CalledBy body)) c →
      ¬ Relation.TransGen (CalledBy body) c c := by
    intro c hc
    induction hc with
    | intro c _ ih => exact fun hcc => ih c hcc hcc
  exact hirrefl c hacc.transGen hcycle

end Unrestricted

end Terminates

end Procedure
