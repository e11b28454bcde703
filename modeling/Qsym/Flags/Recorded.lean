import Qsym.Flags.Condition

/-!
# Qsym.Flags.Recorded

What a jump is told about a flag. A flag is **reported** with a value if it is known and
the expression that `computeFlag` makes for it has that value (`Reports`). A flag that is
not known is the one of the machine.

After a `set` the flags that the operation touches are its own, so an instruction that
leaves flags alone must not `set` anything. It **leaves** a flag if the flag is known if
and only if it was, and is then reported as the operation gives it that defined it last
(`Leaves`).
-/

namespace Qsym

open Procedure Qsym.Expr X86

/-- What is said of an input is one value. -/
theorem Builds.says_unique {σ : Session} {ρ : Input} {p : Build (Option Expr)} {u v : Bool}
    (h : Builds σ anyCall p (Says (· = ρ) fun _ => u))
    (h' : Builds σ anyCall p (Says (· = ρ) fun _ => v)) : u = v := by
  obtain ⟨_, _, -, -, ⟨e, rfl, he⟩, ⟨e', heq, he'⟩⟩ :=
    Total.and h h' (freshWorld 0) trivial fun _ _ => trivial
  cases heq
  exact (he.truth ρ rfl).symm.trans (he'.truth ρ rfl)

/-! ### After one call -/

namespace Eflags

variable {k : OpKind} {f : Eflag} {e : Eflags} {r d s : Option Expr}

theorem has_invalidate :
    (e.invalidate k).validSet.has f = (e.validSet.has f && !k.touches f) :=
  EflagSet.has_and_not ..

theorem has_set : (e.set k r d s).validSet.has f =
    (e.validSet.has f && !k.getUndefinedEflags.has f || k.defines f) := by
  show ((e.validSet &&& ~~~k.getUndefinedEflags) ||| k.getAffectedEflags).has f = _
  rw [EflagSet.has_or, EflagSet.has_and_not]
  rfl

/-- The walk ends at the operation that was just set, if it touches the flag. -/
theorem find_set (h : k.touches f = true) : (e.set k r d s).find f = .found k := by
  have hkind : (e.set k r d s).opKinds (slot ((e.set k r d s).start - UInt32.ofNat 0)) =
      some k := by
    rw [show (e.set k r d s).start - UInt32.ofNat 0 = (e.set k r d s).start from UInt32.sub_zero _]
    simp [set]
  have hflags : ((e.set k r d s).operations k).flags &&& f.mask ≠ 0 := by
    simpa [set, validate, FlagOperation.set, OpKind.touches, EflagSet.has] using h
  rw [find, show List.range OpKind.last = 0 :: List.range' 1 11 from rfl, search, hkind]
  exact if_pos hflags

theorem computeFlag_set (b : ExprBuilder) (h : k.touches f = true) {p : Build Expr}
    (hp : (FlagOperation.set k r d s).compute b k f = some p) :
    (e.set k r d s).computeFlag b f = p.bind fun x => .ret (some x) := by
  have hop : (e.set k r d s).operations k = .set k r d s := by simp [set, validate]
  simp only [computeFlag, find_set h, hop, hp]
  rfl

/-! ### Reports -/

/-- The flag is known, and its expression has the value `v` for `ρ`. -/
structure Reports (σ : Session) (ρ : Input) (e : Eflags) (f : Eflag) (v : Bool) : Prop where
  known : e.validSet.has f = true
  built : Builds σ anyCall (e.computeFlag SymbolicExprBuilder.chain f) (Says (· = ρ) fun _ => v)

/-- A jump that is told about the flag is told `v`. -/
def Tells (σ : Session) (ρ : Input) (e : Eflags) (f : Eflag) (v : Bool) : Prop :=
  e.validSet.has f = true → e.Reports σ ρ f v

variable {σ : Session} {ρ : Input} {u v : Bool}

theorem Reports.unique (h : e.Reports σ ρ f u) (h' : e.Reports σ ρ f v) : u = v :=
  Builds.says_unique h.built h'.built

theorem Reports.tells_iff (h : e.Reports σ ρ f u) : e.Tells σ ρ f v ↔ u = v := by
  constructor
  · intro hv
    exact h.unique (hv h.known)
  · rintro rfl _
    exact h

/-- An operation that was just set is the one that its flags are taken from. -/
theorem reports_set {fs : FlagSet} (hd : fs.kind.defines f = true)
    (hc : Performs.Computes σ anyCall SymbolicExprBuilder.chain ρ fs f v) :
    (e.set fs.kind fs.result fs.dst fs.src).Reports σ ρ f v := by
  obtain ⟨p, hp, hbuilds⟩ := hc
  refine ⟨by simp [has_set, hd], ?_⟩
  rw [computeFlag_set _ (FlagHistory.touches_of_defines hd) hp]
  exact Total.bind hbuilds fun x hx => Total.ret ⟨x, rfl, hx⟩

end Eflags

/-- The flags of an operation that was just set. -/
theorem Performs.reports {σ : Session} {ρ : Input} {fs : FlagSet} {op : Operation}
    (h : Performs ρ fs op) {f : Eflag} {v : Bool} (hf : op.flag f = some v) (e : Eflags) :
    (e.set fs.kind fs.result fs.dst fs.src).Reports σ ρ f v :=
  Eflags.reports_set (by rw [h.defines_eq, hf]; rfl) (h.computes (chain_soundSimply σ _) hf)

/-- The flags that a call defines or lets go of. -/
def EflagsCall.touches : EflagsCall → Eflag → Bool
  | set s, f => s.kind.touches f
  | invalidate k, f => k.touches f

/-! ### What a history says of a flag -/

namespace FlagHistory

/-- The operation that defined the flag last gives it the value `v`. -/
def Gives (σ : Session) (ρ : Input) (h : FlagHistory) (f : Eflag) (v : Bool) : Prop :=
  ∃ s, lastDefining h f = some s ∧
    Performs.Computes σ anyCall SymbolicExprBuilder.chain ρ s f v

/-- From the history `h` on, the flag is left as it was defined. -/
structure Leaves (σ : Session) (ρ : Input) (h : FlagHistory) (e : Eflags) (f : Eflag) : Prop where
  known : e.validSet.has f = (eflags h).validSet.has f
  tells : (eflags h).validSet.has f = true → ∀ v, Gives σ ρ h f v → e.Reports σ ρ f v

variable {σ : Session} {ρ : Input} {h : FlagHistory} {f : Eflag} {k : OpKind}

/-- Letting go of a flag leaves it if it was not known. -/
theorem leaves_invalidate_iff (hk : k.touches f = true) :
    Leaves σ ρ h ((eflags h).invalidate k) f ↔ (eflags h).validSet.has f = false := by
  have hnot : ((eflags h).invalidate k).validSet.has f = false := by
    simp [Eflags.has_invalidate, hk]
  constructor
  · intro hleaves
    exact hleaves.known.symm.trans hnot
  · intro hhas
    exact ⟨hnot.trans hhas.symm, fun hv => nomatch hhas.symm.trans hv⟩

/-- Defining a flag leaves it if it was known and the new value is the old one. -/
theorem leaves_set_iff {fs : FlagSet} {v : Bool} (hd : fs.kind.defines f = true)
    (hc : Performs.Computes σ anyCall SymbolicExprBuilder.chain ρ fs f v) :
    Leaves σ ρ h ((eflags h).set fs.kind fs.result fs.dst fs.src) f ↔
      (eflags h).validSet.has f = true ∧ ∀ u, Gives σ ρ h f u → u = v := by
  have hset := Eflags.reports_set (e := eflags h) hd hc
  constructor
  · intro hleaves
    have hhas := hleaves.known.symm.trans hset.known
    exact ⟨hhas, fun u hu => (hleaves.tells hhas u hu).unique hset⟩
  · rintro ⟨hhas, hsame⟩
    refine ⟨hset.known.trans hhas.symm, fun _ u hu => ?_⟩
    rw [hsame u hu]
    exact hset

/-! ### Flags that a call does not touch -/

/-- From the history `h` on, the flag is known if it was, and still taken from the operation
that defined it last. -/
structure Kept (h : FlagHistory) (e : Eflags) (f : Eflag) : Prop where
  known : e.validSet.has f = (eflags h).validSet.has f
  taken : (eflags h).validSet.has f = true → ∃ s, lastDefining h f = some s ∧
    e.find f = .found s.kind ∧ e.operations s.kind = s.operation

/-- A flag that a call does not touch is kept as long as the walk still comes to it. -/
theorem kept_iff {c : EflagsCall} (hc : c.touches f = false) :
    Kept h (eflags (c :: h)) f ↔ ((eflags h).validSet.has f = true → InReach (c :: h) f) := by
  have hknown : (eflags (c :: h)).validSet.has f = (eflags h).validSet.has f ∧
      lastDefining (c :: h) f = lastDefining h f := by
    cases c with
    | set s =>
        have hs := hc
        rw [EflagsCall.touches, OpKind.touches_eq, Bool.or_eq_false_iff] at hs
        exact ⟨by simp [eflags, Eflags.has_set, hs.1, hs.2], by simp [lastDefining, sets, hs.1]⟩
    | invalidate k =>
        exact ⟨by simp [eflags, Eflags.has_invalidate, show k.touches f = false from hc], rfl⟩
  constructor
  · intro hkept hv
    obtain ⟨s, hs, htaken⟩ := hkept.taken hv
    exact (resolves_iff (hknown.1.trans hv)).1 ⟨s, hknown.2.trans hs, htaken⟩
  · intro hreach
    refine ⟨hknown.1, fun hv => ?_⟩
    obtain ⟨s, hs, htaken⟩ := (resolves_iff (hknown.1.trans hv)).2 (hreach hv)
    exact ⟨s, hknown.2.symm.trans hs, htaken⟩

/-- What is in reach depends on the kinds alone. -/
theorem inReach_congr {h' : FlagHistory} (hk : kinds h = kinds h') : InReach h f ↔
    InReach h' f := by
  have hlast (h : FlagHistory) :
      (lastDefining h f).map FlagSet.kind = (kinds h).find? fun k => k.defines f := by
    rw [lastDefining, kinds, List.find?_map]
    rfl
  have hat (i : Nat) : kindAt h i = kindAt h' i := by rw [kindAt, kindAt, hk]
  simp only [InReach, age, hlast, hk, funext hat]

end FlagHistory

end Qsym
