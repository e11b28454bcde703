import Mathlib.Logic.Basic

/-!
# Qsym.Procedure.Program

Programs of **mutually recursive procedures over a state**, and a total-correctness
logic for them. Nothing here depends on what the procedures compute.

A `Program C R S α` is a syntax tree: it may call a procedure (named, with its
arguments, by a `C`, answering an `R`), read or replace the state, stop, or
return an `α`. A *declaration* `body : C → Program C R S R` gives every
procedure its text, so recursion is unrestricted and no termination argument is
part of a definition. `Program.run` executes a program with a bound on the call
depth; `Runs` says that some depth suffices, which is the only way the results
below speak about an outcome.

`Reaches` collects the calls an execution makes. `Total` is the triple used
everywhere: from every state of the invariant, *as long as no call outside `ok`
is reached*, the program returns, keeps the invariant, and the postcondition
holds.
-/

namespace Procedure

/-- A program over procedure calls `C` (answering `R`) and a state `S`. -/
inductive Program (C R S α : Type) : Type
  /-- Return `a`. -/
  | ret (a : α)
  /-- Stop the process: a failed assertion or a trap. -/
  | stop
  /-- Call `c` and continue with its answer. -/
  | call (c : C) (k : R → Program C R S α)
  /-- Continue with the current state. -/
  | get (k : S → Program C R S α)
  /-- Replace the state. -/
  | set (s : S) (p : Program C R S α)

namespace Program

variable {C R S α β : Type}

/-- Sequential composition. -/
def bind : Program C R S α → (α → Program C R S β) → Program C R S β
  | ret a, f => f a
  | stop, _ => stop
  | call c k, f => call c fun r => (k r).bind f
  | get k, f => get fun s => (k s).bind f
  | set s p, f => set s (p.bind f)

instance : Monad (Program C R S) where
  pure := ret
  bind := bind

@[simp] theorem pure_eq (a : α) : (pure a : Program C R S α) = ret a := rfl

@[simp] theorem bind_eq (p : Program C R S α) (f : α → Program C R S β) :
    (p >>= f) = p.bind f := rfl

@[simp] theorem ret_bind (a : α) (f : α → Program C R S β) : (ret a).bind f = f a := rfl

@[simp] theorem call_bind (c : C) (k : R → Program C R S α) (f : α → Program C R S β) :
    (call c k).bind f = call c fun r => (k r).bind f := rfl

@[simp] theorem bind_ret (p : Program C R S α) : p.bind ret = p := by
  induction p with
  | ret a => rfl
  | stop => rfl
  | call c k ih => simp only [bind, ih]
  | get k ih => simp only [bind, ih]
  | set s p ih => simp only [bind, ih]

theorem bind_assoc {γ : Type} (p : Program C R S α) (f : α → Program C R S β)
    (g : β → Program C R S γ) : (p.bind f).bind g = p.bind fun a => (f a).bind g := by
  induction p with
  | ret a => rfl
  | stop => rfl
  | call c k ih => simp only [bind, ih]
  | get k ih => simp only [bind, ih]
  | set s p ih => simp only [bind, ih]

/-- Execute `p`, answering its calls by `self`. -/
def run (self : C → S → Option (R × S)) : Program C R S α → S → Option (α × S)
  | ret a, s => some (a, s)
  | stop, _ => none
  | call c k, s =>
    match self c s with
    | none => none
    | some (r, s') => (k r).run self s'
  | get k, s => (k s).run self s
  | set s' p, _ => p.run self s'

theorem run_bind (self : C → S → Option (R × S)) (p : Program C R S α)
    (f : α → Program C R S β) (s : S) :
    (p.bind f).run self s =
      match p.run self s with
      | none => none
      | some (a, s') => (f a).run self s' := by
  induction p generalizing s with
  | ret a => rfl
  | stop => rfl
  | call c k ih =>
      simp only [bind, run]
      cases self c s with
      | none => rfl
      | some rs => exact ih rs.1 rs.2
  | get k ih => exact ih s s
  | set s' p ih => exact ih s'

/-- More defined procedures make a program more defined. -/
theorem run_mono {self self' : C → S → Option (R × S)}
    (h : ∀ c s x, self c s = some x → self' c s = some x) (p : Program C R S α) :
    ∀ {s x}, p.run self s = some x → p.run self' s = some x := by
  induction p with
  | ret a => exact fun hx => hx
  | stop => exact fun hx => hx
  | call c k ih =>
      intro s x hx
      simp only [run] at hx ⊢
      cases hc : self c s with
      | none => simp [hc] at hx
      | some rs =>
          rw [h c s rs hc]
          rw [hc] at hx
          exact ih rs.1 hx
  | get k ih => exact fun {s x} hx => ih s hx
  | set s' p ih => exact fun hx => ih hx

end Program

variable {C R S α β : Type}

/-- Execute the procedure `c` with at most `n` nested calls. -/
def exec (body : C → Program C R S R) : Nat → C → S → Option (R × S)
  | 0, _, _ => none
  | n + 1, c, s => (body c).run (exec body n) s

theorem exec_succ {body : C → Program C R S R} :
    ∀ {n : Nat} {c : C} {s : S} {x}, exec body n c s = some x → exec body (n + 1) c s = some x
  | 0, _, _, _, h => by simp [exec] at h
  | n + 1, c, _, _, h => (body c).run_mono (fun _ _ _ h' => exec_succ h') h

/-- A larger call depth never changes an outcome. -/
theorem exec_mono {body : C → Program C R S R} {n m : Nat} (hnm : n ≤ m) {c : C} {s : S} {x}
    (h : exec body n c s = some x) : exec body m c s = some x := by
  induction hnm with
  | refl => exact h
  | step _ ih => exact exec_succ ih

/-! ### Outcomes -/

/-- Running `p` from `s` returns `a` in the state `s'` (at some call depth). -/
def Runs (body : C → Program C R S R) (p : Program C R S α) (s : S) (a : α) (s' : S) : Prop :=
  ∃ n, p.run (exec body n) s = some (a, s')

namespace Runs

variable {body : C → Program C R S R}

/-- An outcome is reached at every large enough call depth. -/
theorem at_depth {p : Program C R S α} {s : S} {a : α} {s' : S} (h : Runs body p s a s') :
    ∃ n, ∀ m, n ≤ m → p.run (exec body m) s = some (a, s') := by
  obtain ⟨n, hn⟩ := h
  exact ⟨n, fun m hm => p.run_mono (fun _ _ _ h' => exec_mono hm h') hn⟩

/-- Outcomes are unique. -/
theorem unique {p : Program C R S α} {s : S} {a b : α} {s₁ s₂ : S}
    (h₁ : Runs body p s a s₁) (h₂ : Runs body p s b s₂) : a = b ∧ s₁ = s₂ := by
  obtain ⟨n, hn⟩ := h₁.at_depth
  obtain ⟨m, hm⟩ := h₂.at_depth
  have h := (hn (max n m) (Nat.le_max_left ..)).symm.trans (hm (max n m) (Nat.le_max_right ..))
  simpa using h

/-- What one execution shows of the answer holds of the outcome. -/
theorem eq_of_run {p : Program C R S α} {s s' : S} {a : α} (h : Runs body p s a s') {f : α → β}
    {n : Nat} {b : β} (hn : (p.run (exec body n) s).map (fun x => f x.1) = some b) : f a = b := by
  obtain ⟨⟨a', s₁⟩, hr, rfl⟩ := Option.map_eq_some_iff.1 hn
  rw [(h.unique ⟨n, hr⟩).1]

theorem ret (a : α) (s : S) : Runs body (.ret a) s a s := ⟨0, rfl⟩

theorem ret_iff {a b : α} {s s' : S} : Runs body (.ret a) s b s' ↔ a = b ∧ s = s' :=
  ⟨fun h => (ret a s).unique h, fun ⟨ha, hs⟩ => ha ▸ hs ▸ ret a s⟩

theorem bind_iff {p : Program C R S α} {f : α → Program C R S β} {s : S} {b : β} {s' : S} :
    Runs body (p.bind f) s b s' ↔ ∃ a s₁, Runs body p s a s₁ ∧ Runs body (f a) s₁ b s' := by
  constructor
  · rintro ⟨n, hn⟩
    rw [Program.run_bind] at hn
    cases hp : p.run (exec body n) s with
    | none => simp [hp] at hn
    | some x =>
        rw [hp] at hn
        exact ⟨x.1, x.2, ⟨n, hp⟩, ⟨n, hn⟩⟩
  · rintro ⟨a, s₁, hp, hf⟩
    obtain ⟨n, hn⟩ := hp.at_depth
    obtain ⟨m, hm⟩ := hf.at_depth
    refine ⟨max n m, ?_⟩
    rw [Program.run_bind, hn _ (Nat.le_max_left ..)]
    exact hm _ (Nat.le_max_right ..)

theorem call_iff {c : C} {k : R → Program C R S α} {s : S} {a : α} {s' : S} :
    Runs body (.call c k) s a s' ↔
      ∃ r s₁, Runs body (body c) s r s₁ ∧ Runs body (k r) s₁ a s' := by
  constructor
  · rintro ⟨n, hn⟩
    cases n with
    | zero => simp [Program.run, exec] at hn
    | succ n =>
        simp only [Program.run] at hn
        cases hc : exec body (n + 1) c s with
        | none => simp [hc] at hn
        | some x =>
            rw [hc] at hn
            exact ⟨x.1, x.2, ⟨n, hc⟩, ⟨n + 1, hn⟩⟩
  · rintro ⟨r, s₁, hc, hk⟩
    obtain ⟨n, hn⟩ := hc.at_depth
    obtain ⟨m, hm⟩ := hk.at_depth
    refine ⟨max n m + 1, ?_⟩
    have h₁ : exec body (max n m + 1) c s = some (r, s₁) := hn _ (Nat.le_max_left ..)
    simp only [Program.run, h₁]
    exact hm _ (Nat.le_succ_of_le (Nat.le_max_right ..))

end Runs

/-! ### The calls of an execution -/

/-- `Reaches body p s c`: executing `p` from `s` makes the call `c`, at whatever depth. -/
inductive Reaches (body : C → Program C R S R) :
    {α : Type} → Program C R S α → S → C → Prop
  | get {α : Type} {k : S → Program C R S α} {s : S} {c : C} :
      Reaches body (k s) s c → Reaches body (.get k) s c
  | set {α : Type} {p : Program C R S α} {s s' : S} {c : C} :
      Reaches body p s' c → Reaches body (.set s' p) s c
  | here {α : Type} {c : C} {k : R → Program C R S α} {s : S} :
      Reaches body (.call c k) s c
  | inside {α : Type} {c c' : C} {k : R → Program C R S α} {s : S} :
      Reaches body (body c) s c' → Reaches body (.call c k) s c'
  | after {α : Type} {c c' : C} {k : R → Program C R S α} {s s₁ : S} {r : R} :
      Runs body (body c) s r s₁ → Reaches body (k r) s₁ c' → Reaches body (.call c k) s c'

theorem Reaches.bind_left {body : C → Program C R S R} {p : Program C R S α}
    {f : α → Program C R S β} {s : S} {c : C} (h : Reaches body p s c) :
    Reaches body (p.bind f) s c := by
  induction p generalizing s with
  | ret a => cases h
  | stop => cases h
  | call c' k ih =>
      cases h with
      | here => exact .here
      | inside h => exact .inside h
      | after hr h => exact .after hr (ih _ h)
  | get k ih => cases h with | get h => exact .get (ih _ h)
  | set s' p ih => cases h with | set h => exact .set (ih h)

theorem Reaches.bind_right {body : C → Program C R S R} {p : Program C R S α}
    {f : α → Program C R S β} {s s₁ : S} {a : α} {c : C} (hp : Runs body p s a s₁)
    (h : Reaches body (f a) s₁ c) : Reaches body (p.bind f) s c := by
  induction p generalizing s with
  | ret a' => obtain ⟨rfl, rfl⟩ := Runs.ret_iff.1 hp; exact h
  | stop => obtain ⟨n, hn⟩ := hp; simp [Program.run] at hn
  | call c' k ih =>
      obtain ⟨r, s₂, hr, hk⟩ := Runs.call_iff.1 hp
      exact .after hr (ih r hk)
  | get k ih => exact .get (ih s hp)
  | set s' p ih => exact .set (ih hp)

/-- A program that returns only reaches calls that return. -/
theorem Reaches.runs {body : C → Program C R S R} {p : Program C R S α} {s s' : S} {a : α} {c : C}
    (h : Reaches body p s c) (hp : Runs body p s a s') : ∃ s₁ r s₂, Runs body (body c) s₁ r s₂ := by
  induction h generalizing s' with
  | get _ ih => exact ih hp
  | set _ ih => exact ih hp
  | here =>
      obtain ⟨r, s₁, hc, -⟩ := Runs.call_iff.1 hp
      exact ⟨_, r, s₁, hc⟩
  | inside _ ih =>
      obtain ⟨r, s₁, hc, -⟩ := Runs.call_iff.1 hp
      exact ih hc
  | after hr _ ih =>
      obtain ⟨r, s₁, hc, hk⟩ := Runs.call_iff.1 hp
      obtain ⟨rfl, rfl⟩ := hc.unique hr
      exact ih hk

/-- Every call reached satisfies `ok`. -/
def Safe (body : C → Program C R S R) (ok : C → Prop) (p : Program C R S α) (s : S) : Prop :=
  ∀ c, Reaches body p s c → ok c

/-! ### Recording the calls -/

/-- Execute `p` like `Program.run` and record the calls made. -/
def Program.trace (self : C → S → Option (R × S × List C)) :
    Program C R S α → S → Option (α × S × List C)
  | ret a, s => some (a, s, [])
  | stop, _ => none
  | call c k, s =>
    match self c s with
    | none => none
    | some (r, s', cs) =>
      match (k r).trace self s' with
      | none => none
      | some (a, s'', ds) => some (a, s'', c :: (cs ++ ds))
  | get k, s => (k s).trace self s
  | set s' p, _ => p.trace self s'

/-- Execute the procedure `c` like `exec` and record the calls made inside. -/
def execTrace (body : C → Program C R S R) : Nat → C → S → Option (R × S × List C)
  | 0, _, _ => none
  | n + 1, c, s => (body c).trace (execTrace body n) s

/-- A recorded execution of `p`: its outcome, and every call it reaches is on record. -/
structure Recorded (body : C → Program C R S R) (p : Program C R S α) (s : S) (a : α) (s' : S)
    (cs : List C) : Prop where
  runs : Runs body p s a s'
  mem : ∀ c, Reaches body p s c → c ∈ cs

theorem recorded_of_self {body : C → Program C R S R} {self : C → S → Option (R × S × List C)}
    (hself : ∀ c s r s' cs, self c s = some (r, s', cs) → Recorded body (body c) s r s' cs)
    (p : Program C R S α) :
    ∀ {s a s' cs}, p.trace self s = some (a, s', cs) → Recorded body p s a s' cs := by
  induction p with
  | ret a =>
      intro s a' s' cs h
      cases h
      exact ⟨.ret a s, fun c hc => nomatch hc⟩
  | stop => exact fun h => nomatch h
  | call c k ih =>
      intro s a s' cs h
      simp only [Program.trace] at h
      split at h
      next => cases h
      next r s₁ cs₁ hc =>
          split at h
          next => cases h
          next a' s₂ cs₂ hk =>
              cases h
              have hcall := hself c s r s₁ cs₁ hc
              have hcont := ih r hk
              refine ⟨Runs.call_iff.2 ⟨r, s₁, hcall.runs, hcont.runs⟩, fun c' hr => ?_⟩
              cases hr with
              | here => exact List.mem_cons_self
              | inside hr =>
                  exact List.mem_cons_of_mem _ (List.mem_append_left _ (hcall.mem c' hr))
              | after hrun hr =>
                  obtain ⟨rfl, rfl⟩ := hcall.runs.unique hrun
                  exact List.mem_cons_of_mem _ (List.mem_append_right _ (hcont.mem c' hr))
  | get k ih =>
      intro s a s' cs h
      obtain ⟨⟨n, hn⟩, hmem⟩ := ih s h
      exact ⟨⟨n, hn⟩, fun c hc => by cases hc with | get hc => exact hmem c hc⟩
  | set s₁ p ih =>
      intro s a s' cs h
      obtain ⟨⟨n, hn⟩, hmem⟩ := ih h
      exact ⟨⟨n, hn⟩, fun c hc => by cases hc with | set hc => exact hmem c hc⟩

theorem recorded_execTrace {body : C → Program C R S R} (n : Nat) :
    ∀ c s r s' cs, execTrace body n c s = some (r, s', cs) →
      Recorded body (body c) s r s' cs := by
  induction n with
  | zero => exact fun _ _ _ _ _ h => nomatch h
  | succ n ih => exact fun c _ _ _ _ h => recorded_of_self ih (body c) h

/-- Whether an execution only makes calls in `ok` can be read off its record. -/
theorem safe_of_trace {body : C → Program C R S R} {ok : C → Prop} [DecidablePred ok]
    {p : Program C R S α} {s : S} {n : Nat}
    (h : (p.trace (execTrace body n) s).map (fun x => x.2.2.all fun c => decide (ok c)) =
      some true) : Safe body ok p s := by
  obtain ⟨⟨a, s', cs⟩, hr, hall⟩ := Option.map_eq_some_iff.1 h
  have hrec := recorded_of_self (recorded_execTrace n) p hr
  exact fun c hc => of_decide_eq_true (List.all_eq_true.1 hall c (hrec.mem c hc))

/-! ### Total correctness -/

/-- From every state of the invariant `I` from which `p` only reaches calls in
`ok`, `p` returns a value satisfying `Q` in a state of `I`. -/
def Total (body : C → Program C R S R) (ok : C → Prop) (I : S → Prop) (p : Program C R S α)
    (Q : α → Prop) : Prop :=
  ∀ s, I s → Safe body ok p s → ∃ a s', Runs body p s a s' ∧ I s' ∧ Q a

namespace Total

variable {body : C → Program C R S R} {ok : C → Prop} {I : S → Prop}
variable {p : Program C R S α} {P : α → Prop} {Q : β → Prop}

theorem ret {a : α} (h : P a) : Total body ok I (.ret a) P :=
  fun s hs _ => ⟨a, s, .ret a s, hs, h⟩

theorem mono {P' : α → Prop} (h : Total body ok I p P) (hP : ∀ a, P a → P' a) :
    Total body ok I p P' := by
  intro s hs hsafe
  obtain ⟨a, s', hr, hI, ha⟩ := h s hs hsafe
  exact ⟨a, s', hr, hI, hP a ha⟩

/-- There is one outcome for both postconditions. -/
theorem and {P' : α → Prop} (h : Total body ok I p P) (h' : Total body ok I p P') :
    Total body ok I p (fun a => P a ∧ P' a) := by
  intro s hs hsafe
  obtain ⟨a, s₁, hr, hI, ha⟩ := h s hs hsafe
  obtain ⟨a', s₂, hr', -, ha'⟩ := h' s hs hsafe
  obtain ⟨rfl, -⟩ := hr.unique hr'
  exact ⟨a, s₁, hr, hI, ha, ha'⟩

theorem bind {f : α → Program C R S β} (h : Total body ok I p P)
    (hf : ∀ a, P a → Total body ok I (f a) Q) : Total body ok I (p.bind f) Q := by
  intro s hs hsafe
  obtain ⟨a, s₁, hr, hI, ha⟩ := h s hs fun c hc => hsafe c hc.bind_left
  obtain ⟨b, s₂, hr', hI', hb⟩ := hf a ha s₁ hI fun c hc => hsafe c (.bind_right hr hc)
  exact ⟨b, s₂, Runs.bind_iff.2 ⟨a, s₁, hr, hr'⟩, hI', hb⟩

/-- A call meets what its body meets. The body may use that the call was `ok`. -/
theorem call {c : C} {Q : R → Prop} (h : ok c → Total body ok I (body c) Q) :
    Total body ok I (.call c .ret) Q := by
  intro s hs hsafe
  obtain ⟨r, s₁, hr, hI, hq⟩ := h (hsafe c .here) s hs fun c' hc' => hsafe c' (.inside hc')
  exact ⟨r, s₁, Runs.call_iff.2 ⟨r, s₁, hr, .ret r s₁⟩, hI, hq⟩

/-- A step that only looks at the state. -/
theorem get {k : S → Program C R S α} (h : ∀ s, I s → Total body ok I (k s) P) :
    Total body ok I (.get k) P := by
  intro s hs hsafe
  obtain ⟨a, s', ⟨n, hn⟩, hI, ha⟩ := h s hs s hs fun c hc => hsafe c (.get hc)
  exact ⟨a, s', ⟨n, hn⟩, hI, ha⟩

/-- A step that replaces the state by another one of the invariant. -/
theorem set {s' : S} (hs' : I s') (h : Total body ok I p P) : Total body ok I (.set s' p) P := by
  intro s _ hsafe
  obtain ⟨a, s₁, ⟨n, hn⟩, hI, ha⟩ := h s' hs' fun c hc => hsafe c (.set hc)
  exact ⟨a, s₁, ⟨n, hn⟩, hI, ha⟩

/-- The rule for a loop over a list, with an invariant about the part passed. -/
theorem foldlM {ι : Type} {f : α → ι → Program C R S α} {Q : List ι → α → Prop} {l : List ι}
    (hf : ∀ pre i a, i ∈ l → Q pre a → Total body ok I (f a i) (Q (pre ++ [i]))) (pre : List ι)
    {a : α} (ha : Q pre a) : Total body ok I (l.foldlM f a) (Q (pre ++ l)) := by
  induction l generalizing pre a with
  | nil =>
      rw [List.append_nil]
      exact ret ha
  | cons i l ih =>
      rw [List.foldlM_cons]
      refine bind (hf pre i a List.mem_cons_self ha) fun a' ha' => ?_
      rw [List.append_cons]
      exact ih (fun pre j b hj => hf pre j b (List.mem_cons_of_mem i hj)) _ ha'

/-- The rule for fewer calls. -/
theorem weaken {ok' : C → Prop} (h : Total body ok I p P) (hok : ∀ c, ok' c → ok c) :
    Total body ok' I p P :=
  fun s hs hsafe => h s hs fun c hc => hok c (hsafe c hc)

/-- What holds without any restriction on calls holds under every restriction. -/
theorem of_true (h : Total body (fun _ => True) I p P) : Total body ok I p P :=
  h.weaken fun _ _ => trivial

end Total

/-! ### What a program is made of -/

/-- Looking only at the text of `p`: its calls are in `ok` and its results in `P`, as
long as calls return values in `good`. -/
def Program.Keeps (ok : C → Prop) (good : R → Prop) (P : α → Prop) : Program C R S α → Prop
  | ret a => P a
  | stop => True
  | call c k => ok c ∧ ∀ r, good r → (k r).Keeps ok good P
  | get k => ∀ s, (k s).Keeps ok good P
  | set _ p => p.Keeps ok good P

namespace Program.Keeps

variable {body : C → Program C R S R} {ok : C → Prop} {good : R → Prop}
variable {p : Program C R S α} {P : α → Prop}

theorem mono {P' : α → Prop} (h : p.Keeps ok good P) (hP : ∀ a, P a → P' a) :
    p.Keeps ok good P' := by
  induction p with
  | ret a => exact hP a h
  | stop => trivial
  | call c k ih => exact ⟨h.1, fun r hr => ih r (h.2 r hr)⟩
  | get k ih => exact fun s => ih s (h s)
  | set s p ih => exact ih h

theorem bind {Q : β → Prop} {f : α → Program C R S β} (h : p.Keeps ok good P)
    (hf : ∀ a, P a → (f a).Keeps ok good Q) : (p.bind f).Keeps ok good Q := by
  induction p with
  | ret a => exact hf a h
  | stop => trivial
  | call c k ih => exact ⟨h.1, fun r hr => ih r (h.2 r hr)⟩
  | get k ih => exact fun s => ih s (h s)
  | set s p ih => exact ih h

theorem foldlM {ι : Type} {f : α → ι → Program C R S α} {l : List ι}
    (hf : ∀ a i, i ∈ l → P a → (f a i).Keeps ok good P) {a : α} (ha : P a) :
    (l.foldlM f a).Keeps ok good P := by
  induction l generalizing a with
  | nil => exact ha
  | cons i l ih =>
      rw [List.foldlM_cons]
      exact (hf a i List.mem_cons_self ha).bind fun b hb =>
        ih (fun b j hj => hf b j (List.mem_cons_of_mem i hj)) hb

theorem run {self : C → S → Option (R × S)}
    (hself : ∀ c s r s', ok c → self c s = some (r, s') → good r) (h : p.Keeps ok good P)
    {s s' : S} {a : α} (hr : p.run self s = some (a, s')) : P a := by
  induction p generalizing s with
  | ret b =>
      cases hr
      exact h
  | stop => cases hr
  | call c k ih =>
      cases hc : self c s with
      | none => simp [Program.run, hc] at hr
      | some x =>
          simp only [Program.run, hc] at hr
          exact ih x.1 (h.2 x.1 (hself c s x.1 x.2 h.1 hc)) hr
  | get k ih => exact ih s (h s) hr
  | set s₁ p ih => exact ih h hr

variable (hbody : ∀ c, ok c → (body c).Keeps ok good good)

include hbody in
theorem exec {n : Nat} {c : C} {s s' : S} {r : R} (hc : ok c)
    (hr : exec body n c s = some (r, s')) : good r := by
  induction n generalizing c s s' r with
  | zero => cases hr
  | succ n ih => exact run (fun c s r s' hc hr => ih hc hr) (hbody c hc) hr

include hbody in
/-- A result is in `P`. -/
theorem result (h : p.Keeps ok good P) {s s' : S} {a : α} (hr : Runs body p s a s') : P a := by
  obtain ⟨n, hn⟩ := hr
  exact h.run (fun c s r s' hc hr => exec hbody hc hr) hn

include hbody in
/-- Every call reached is in `ok`. -/
theorem safe (h : p.Keeps ok good P) (s : S) : Safe body ok p s := by
  intro c hc
  induction hc with
  | get _ ih => exact ih (h _)
  | set _ ih => exact ih h
  | here => exact h.1
  | inside _ ih => exact ih (hbody _ h.1)
  | after hr _ ih => exact ih (h.2 _ ((hbody _ h.1).result hbody hr))

end Program.Keeps

/-! ### Partial correctness -/

/-- Whatever `p` returns satisfies `Q`, from every state from which it only reaches
calls in `ok`. -/
def Yields (body : C → Program C R S R) (ok : C → Prop) (p : Program C R S α) (Q : α → Prop) :
    Prop :=
  ∀ s a s', Safe body ok p s → Runs body p s a s' → Q a

namespace Yields

variable {body : C → Program C R S R} {ok : C → Prop}
variable {p : Program C R S α} {P : α → Prop} {Q : β → Prop}

theorem ret {a : α} (h : P a) : Yields body ok (.ret a) P :=
  fun _ _ _ _ hr => (Runs.ret_iff.1 hr).1 ▸ h

theorem stop : Yields body ok (.stop : Program C R S α) P :=
  fun _ _ _ _ ⟨_, hn⟩ => by simp [Program.run] at hn

theorem mono {P' : α → Prop} (h : Yields body ok p P) (hP : ∀ a, P a → P' a) :
    Yields body ok p P' :=
  fun s a s' hsafe hr => hP a (h s a s' hsafe hr)

/-- The rule for fewer calls. -/
theorem weaken {ok' : C → Prop} (h : Yields body ok p P) (hok : ∀ c, ok' c → ok c) :
    Yields body ok' p P :=
  fun s a s' hsafe hr => h s a s' (fun c hc => hok c (hsafe c hc)) hr

theorem and {P' : α → Prop} (h : Yields body ok p P) (h' : Yields body ok p P') :
    Yields body ok p (fun a => P a ∧ P' a) :=
  fun s a s' hsafe hr => ⟨h s a s' hsafe hr, h' s a s' hsafe hr⟩

theorem forall_intro {ι : Type} {P : ι → α → Prop} (h : ∀ i, Yields body ok p (P i)) :
    Yields body ok p (fun a => ∀ i, P i a) :=
  fun s a s' hsafe hr i => h i s a s' hsafe hr

theorem bind {f : α → Program C R S β} (h : Yields body ok p P)
    (hf : ∀ a, P a → Yields body ok (f a) Q) : Yields body ok (p.bind f) Q := by
  intro s b s' hsafe hr
  obtain ⟨a, s₁, hp, hq⟩ := Runs.bind_iff.1 hr
  have ha := h s a s₁ (fun c hc => hsafe c hc.bind_left) hp
  exact hf a ha s₁ b s' (fun c hc => hsafe c (.bind_right hp hc)) hq

theorem call {c : C} {Q : R → Prop} (h : ok c → Yields body ok (body c) Q) :
    Yields body ok (.call c .ret) Q := by
  intro s r s' hsafe hr
  obtain ⟨r₁, s₁, hc, hk⟩ := Runs.call_iff.1 hr
  obtain ⟨rfl, rfl⟩ := Runs.ret_iff.1 hk
  exact h (hsafe c .here) s r₁ s₁ (fun c' hc' => hsafe c' (.inside hc')) hc

theorem get {k : S → Program C R S α} (h : ∀ s, Yields body ok (k s) P) :
    Yields body ok (.get k) P :=
  fun s a s' hsafe hr => h s s a s' (fun c hc => hsafe c (.get hc)) hr

theorem set {s₁ : S} (h : Yields body ok p P) : Yields body ok (.set s₁ p) P :=
  fun _ a s' hsafe hr => h s₁ a s' (fun c hc => hsafe c (.set hc)) hr

/-- Nothing is asked of the results. -/
theorem any (p : Program C R S α) : Yields body ok p fun _ => True :=
  fun _ _ _ _ _ => trivial

/-- The rule for a loop over a list, with an invariant about the part passed. -/
theorem foldlM {ι : Type} {f : α → ι → Program C R S α} {Q : List ι → α → Prop} {l : List ι}
    (hf : ∀ pre i a, i ∈ l → Q pre a → Yields body ok (f a i) (Q (pre ++ [i]))) (pre : List ι)
    {a : α} (ha : Q pre a) : Yields body ok (l.foldlM f a) (Q (pre ++ l)) := by
  induction l generalizing pre a with
  | nil =>
      rw [List.append_nil]
      exact ret ha
  | cons i l ih =>
      rw [List.foldlM_cons]
      refine bind (hf pre i a List.mem_cons_self ha) fun a' ha' => ?_
      rw [List.append_cons]
      exact ih (fun pre j b hj => hf pre j b (List.mem_cons_of_mem i hj)) _ ha'

/-- What the text of a program shows. -/
theorem of_keeps {ok' : C → Prop} {good : R → Prop}
    (hbody : ∀ c, ok' c → (body c).Keeps ok' good good) (h : p.Keeps ok' good P) :
    Yields body ok p P :=
  fun _ _ _ _ hr => h.result hbody hr

/-- The one outcome of a program that returns. -/
theorem of_total (h : Total body ok (fun _ => True) p P) : Yields body ok p P := by
  intro s a s' hsafe hr
  obtain ⟨b, s₁, hr', -, hb⟩ := h s trivial hsafe
  rwa [(hr.unique hr').1]

theorem result (h : Yields body (fun _ => True) p P) {s s' : S} {a : α} (hr : Runs body p s a s') :
    P a :=
  h s a s' (fun _ _ => trivial) hr

end Yields

/-- A program that returns, with what its answers are known to satisfy. -/
theorem Total.yields {body : C → Program C R S R} {ok : C → Prop} {I : S → Prop}
    {p : Program C R S α} {P Q : α → Prop} (h : Total body ok I p P) (h' : Yields body ok p Q) :
    Total body ok I p (fun a => P a ∧ Q a) := by
  intro s hs hsafe
  obtain ⟨a, s', hr, hI, ha⟩ := h s hs hsafe
  exact ⟨a, s', hr, hI, ha, h' s a s' hsafe hr⟩

/-! ### Programs that may stop -/

/-- From every state `p` either returns a value satisfying `Q`, or never returns,
which it only does if `T`. -/
def Answers (body : C → Program C R S R) (p : Program C R S α) (Q : α → Prop) (T : Prop) : Prop :=
  ∀ s, (∃ a s', Runs body p s a s' ∧ Q a) ∨ T ∧ ∀ a s', ¬ Runs body p s a s'

namespace Answers

variable {body : C → Program C R S R} {p : Program C R S α} {P : α → Prop} {Q : β → Prop}
variable {T : Prop}

theorem of_total (h : Total body (fun _ => True) (fun _ => True) p P) : Answers body p P T := by
  intro s
  obtain ⟨a, s', hr, -, ha⟩ := h s trivial fun _ _ => trivial
  exact .inl ⟨a, s', hr, ha⟩

theorem mono {P' : α → Prop} (h : Answers body p P T) (hP : ∀ a, P a → P' a) :
    Answers body p P' T := by
  intro s
  obtain ⟨a, s', hr, ha⟩ | h := h s
  · exact .inl ⟨a, s', hr, hP a ha⟩
  · exact .inr h

theorem bind {f : α → Program C R S β} (h : Answers body p P T)
    (hf : ∀ a, P a → Answers body (f a) Q T) : Answers body (p.bind f) Q T := by
  intro s
  obtain ⟨a, s₁, hr, ha⟩ | ⟨hT, hno⟩ := h s
  · obtain ⟨b, s₂, hr', hb⟩ | ⟨hT, hno⟩ := hf a ha s₁
    · exact .inl ⟨b, s₂, Runs.bind_iff.2 ⟨a, s₁, hr, hr'⟩, hb⟩
    · refine .inr ⟨hT, fun b s₂ hb => ?_⟩
      obtain ⟨a', s₁', hp, hb⟩ := Runs.bind_iff.1 hb
      obtain ⟨rfl, rfl⟩ := hr.unique hp
      exact hno b s₂ hb
  · refine .inr ⟨hT, fun b s₂ hb => ?_⟩
    obtain ⟨a, s₁, hp, -⟩ := Runs.bind_iff.1 hb
    exact hno a s₁ hp

theorem call {c : C} {Q : R → Prop} (h : Answers body (body c) Q T) :
    Answers body (.call c .ret) Q T := by
  intro s
  obtain ⟨r, s₁, hr, hq⟩ | ⟨hT, hno⟩ := h s
  · exact .inl ⟨r, s₁, Runs.call_iff.2 ⟨r, s₁, hr, .ret r s₁⟩, hq⟩
  · refine .inr ⟨hT, fun r s₁ hr => ?_⟩
    obtain ⟨r', s₂, hc, -⟩ := Runs.call_iff.1 hr
    exact hno r' s₂ hc

theorem stop (hT : T) : Answers body (.stop : Program C R S α) P T :=
  fun _ => .inr ⟨hT, fun _ _ ⟨_, hn⟩ => by simp [Program.run] at hn⟩

end Answers

end Procedure
