import Qsym.Instrument.Exchange
import Qsym.Instrument.Operands

/-!
# Qsym.Instrument.Fetch

Operands **by value**. An operand has a value for every input (`Operand.bv`), put together
from the expressions of its bytes and from the bytes of the process where there is none.
Reading operands gives expressions of these values, or nothing if none of them depends on
the input (`Fetches`). Besides, it only drops expressions that do not depend on the input,
so the values stay what they were (`Aged`).
-/

namespace Qsym

open Procedure Qsym.Expr

/-- `e` is a trimmed bit vector with the value `v` on all inputs. -/
structure Expresses (n : Nat) (v : Input → BitVec n) (e : Expr) : Prop
    extends Denotes (fun _ => True) n v e where
  trimmed : e.Trimmed

/-- `e` is a trimmed truth value that holds with `p` on all inputs. -/
structure Asserts (p : Input → Bool) (e : Expr) : Prop extends Decides (fun _ => True) p e where
  trimmed : e.Trimmed

/-- The calls of runs that fold no division inexactly. -/
abbrev exactly : MethodCall → Prop :=
  FoldsExactly fun _ => True

/-- `SymbolicExprBuilder` does not rewrite the call as a division. -/
def foldsNothing (m : MethodCall) : Bool :=
  !m.call.traps && match m.call with
    | .binary .udiv (.concat ..) _ | .binary .udiv (.binary _ .udiv ..) _ => false
    | _ => true

theorem exactly_of_foldsNothing {m : MethodCall} (h : foldsNothing m = true) : exactly m := by
  obtain ⟨b, c⟩ := m
  rw [foldsNothing, Bool.and_eq_true, Bool.not_eq_true'] at h
  refine ⟨h.1, ?_⟩
  split
  next l _ _ v heq =>
      cases heq
      cases l with
      | concat => cases h.2
      | binary _ k _ _ =>
          cases k with
          | udiv => cases h.2
          | _ => trivial
      | _ => trivial
  next => trivial

/-- A run whose calls were looked at. -/
theorem safe_exactly {α : Type} {σ : Session} {p : Build α} {w : World} {n : Nat}
    (h : ((p.trace (execTrace (body σ) n) w).map fun x => x.2.2.all fun m => foldsNothing m) =
      some true) : Safe (body σ) exactly p w := by
  have hsafe : Safe (body σ) (fun m => foldsNothing m = true) p w :=
    safe_of_trace (n := n) (by simpa using h)
  exact fun m hm => exactly_of_foldsNothing (hsafe m hm)

/-! ### What the chain builds of them -/

section Chain

open SymbolicExprBuilder (chain)

variable {σ : Session} {ok : MethodCall → Prop} {l r e c t f : Expr} {m n : Nat}
variable {u v : Input → BitVec n} {p : Input → Bool}

theorem Expresses.congr (h : Expresses n v e) (hv : ∀ ρ, v ρ = u ρ) : Expresses n u e :=
  ⟨h.toDenotes.congr fun ρ _ => hv ρ, h.trimmed⟩

/-- A width by another name. -/
theorem Expresses.setWidth {v : Input → BitVec m} (h : Expresses m v e) (hm : m = n) :
    Expresses n (fun ρ => (v ρ).setWidth n) e := by
  subst hm
  exact h.congr fun ρ => (BitVec.setWidth_eq _).symm

theorem builds_expresses {c : Call} (hc : c.On True Expr.Trimmed)
    (h : Builds σ ok (chain.create c) (Denotes (fun _ => True) n v)) :
    Builds σ ok (chain.create c) (Expresses n v) :=
  (Total.yields h (chain_trimmed σ hc)).mono fun _ h => ⟨h.1, h.2⟩

theorem builds_asserts {c : Call} (hc : c.On True Expr.Trimmed)
    (h : Builds σ ok (chain.create c) (Decides (fun _ => True) p)) :
    Builds σ ok (chain.create c) (Asserts p) :=
  (Total.yields h (chain_trimmed σ hc)).mono fun _ h => ⟨h.1, h.2⟩

theorem Expresses.constant_builds (w : BitVec n) (hn : 0 < n) :
    Builds σ ok (chain.create (.constant n w)) (Expresses n fun _ => w) :=
  builds_expresses trivial (Total.of_true ((chain_soundSimply σ _).constant w rfl hn))

theorem Expresses.createConstant_builds (k : Nat) (hn : 0 < n) :
    Builds σ ok (chain.createConstant k n) (Expresses n fun _ => BitVec.ofNat n k) :=
  Expresses.constant_builds _ hn

theorem constant_node (w : BitVec n) (hn : 0 < n) :
    Builds σ ok (chain.create (.constant n w)) fun e => ∃ ref, e = .constant ref n w :=
  builds_create fun _ => builds_create fun _ =>
    ((lower_refines σ fun _ => True).on ok).constant hn w

theorem createConstant_node (k : Nat) (hn : 0 < n) :
    Builds σ ok (chain.createConstant k n) fun e => ∃ ref, e = .constant ref n (BitVec.ofNat n k) :=
  constant_node _ hn

theorem Expresses.compare_builds (k : CompareKind) (hl : Expresses n u l) (hr : Expresses n v r) :
    Builds σ ok (chain.create (.compare k l r)) (Asserts fun ρ => k.holds (u ρ) (v ρ)) :=
  builds_asserts ⟨hl.trimmed, hr.trimmed⟩
    (Total.of_true ((chain_soundSimply σ _).compare k rfl hl.toDenotes hr.toDenotes))

theorem Expresses.unary_builds {k : UnaryKind} (hk : k ≠ .lnot) (he : Expresses n u e) :
    Builds σ ok (chain.create (.unary k e)) (Expresses n fun ρ => k.apply (u ρ)) :=
  builds_expresses he.trimmed
    (Total.of_true ((chain_soundSimply σ _).unary (by cases k <;> rfl) hk he.toDenotes))

theorem Asserts.ite_builds (hc : Asserts p c) (ht : Expresses n u t) (hf : Expresses n v f) :
    Builds σ ok (chain.createIte c t f) (Expresses n fun ρ => if p ρ then u ρ else v ρ) :=
  builds_expresses ⟨hc.trimmed, ht.trimmed, hf.trimmed⟩
    (Total.of_true ((chain_soundSimply σ _).ite rfl hc.toDecides ht.toDenotes hf.toDenotes))

theorem constant_expresses (w : BitVec n) (hn : 0 < n) :
    Yields (body σ) ok (chain.create (.constant n w)) (Expresses n fun _ => w) :=
  Yields.of_total (Expresses.constant_builds w hn)

theorem createConstant_expresses (k : Nat) (hn : 0 < n) :
    Yields (body σ) ok (chain.createConstant k n) (Expresses n fun _ => BitVec.ofNat n k) :=
  constant_expresses _ hn

theorem sound_exactly (σ : Session) :
    SoundOn (fun c => c.isSDiv = false) σ exactly (fun _ => True) chain :=
  chain_sound σ _

/-- The chain for one input. -/
theorem sound_at (σ : Session) (ρ : Input) : Sound σ exactly (· = ρ) chain := by
  intro c hs hc
  refine (chain_sound σ (fun _ => True) c hs hc).mono fun e h => ?_
  exact ⟨h.wellSorted, h.bits, h.isBoolean, fun ρ _ => h.value ρ trivial⟩

theorem Expresses.at (h : Expresses n v e) (ρ : Input) : Denotes (· = ρ) n (fun _ => v ρ) e :=
  ⟨h.isBV, fun ρ' h' => h' ▸ h.bv ρ' trivial⟩

/-- Expressions are built of the values for one input at a time. -/
theorem expresses_of_each {p : Build Expr}
    (h : ∀ ρ, Builds σ ok p (Denotes (· = ρ) n fun _ => v ρ))
    (ht : Yields (body σ) ok p Expr.Trimmed) : Builds σ ok p (Expresses n v) := by
  have hall : Yields (body σ) ok p fun e => ∀ ρ, Denotes (· = ρ) n (fun _ => v ρ) e :=
    Yields.forall_intro fun ρ => Yields.of_total (h ρ)
  refine (Total.yields (h fun _ => 0) (hall.and ht)).mono fun e ⟨he, hall, ht⟩ => ?_
  exact ⟨⟨he.isBV, fun ρ _ => (hall ρ).bv ρ rfl⟩, ht⟩

theorem Expresses.ext_builds {v : Input → BitVec m} (k : ExtKind)
    (he : Expresses m v e) (hn : m ≤ n) :
    Builds σ exactly (chain.create (.ext k e n)) (Expresses n fun ρ => k.apply n (v ρ)) :=
  builds_expresses he.trimmed ((sound_exactly σ).ext k rfl he.toDenotes hn)

theorem Expresses.extract_builds {i w : Nat} (he : Expresses n v e) (hw : 0 < w) (hi : i + w ≤ n) :
    Builds σ exactly (chain.createExtract e i w) (Expresses w fun ρ => (v ρ).extractLsb' i w) :=
  builds_expresses he.trimmed ((sound_exactly σ).extract rfl he.toDenotes hw hi)

theorem Expresses.concat_builds {v : Input → BitVec m} (hl : Expresses m v l)
    (hr : Expresses n u r) :
    Builds σ exactly (chain.createConcat l r) (Expresses (m + n) fun ρ => v ρ ++ u ρ) :=
  builds_expresses ⟨hl.trimmed, hr.trimmed⟩ ((sound_exactly σ).concat rfl hl.toDenotes hr.toDenotes)

theorem Expresses.binary_builds {k : BinaryKind} (hs : k ≠ .sdiv) (hk : k.isLogical = false)
    (hl : Expresses n u l) (hr : Expresses n v r) :
    Builds σ exactly (chain.create (.binary k l r)) (Expresses n fun ρ => k.apply (u ρ) (v ρ)) := by
  have hnot : (Call.binary k l r).isSDiv = false := by cases k <;> first | rfl | exact absurd rfl hs
  refine builds_expresses ⟨fun _ => trivial, hl.trimmed, hr.trimmed⟩ ?_
  exact (sound_exactly σ).binary hnot hk hl.toDenotes hr.toDenotes

theorem Expresses.ext {v : Input → BitVec m} (k : ExtKind) (he : Expresses m v e) (hn : m ≤ n) :
    Yields (body σ) exactly (chain.create (.ext k e n)) (Expresses n fun ρ => k.apply n (v ρ)) :=
  Yields.of_total (he.ext_builds k hn)

theorem Expresses.binary {k : BinaryKind} (hs : k ≠ .sdiv) (hk : k.isLogical = false)
    (hl : Expresses n u l) (hr : Expresses n v r) :
    Yields (body σ) exactly (chain.create (.binary k l r))
      (Expresses n fun ρ => k.apply (u ρ) (v ρ)) :=
  Yields.of_total (hl.binary_builds hs hk hr)

end Chain

/-! ### Values -/

namespace Operand

variable {Reg : Type} (T : Process Reg)

/-- The value of an operand for an input. -/
def bv (v : ShadowMap Reg) (o : Operand Reg) (ρ : Input) : BitVec (o.size T * 8) :=
  BitVec.ofNat _ (Bytes.littleEndian ((o.places T).map (T.byteValue v ρ)))

end Operand

namespace Process

open Handler Stateful

variable {Reg : Type} [DecidableEq Reg] (T : Process Reg)

omit [DecidableEq Reg] in
/-- The expressions have the values of the process for the input that it runs on. -/
def Consistent (input : Input) (v : ShadowMap Reg) : Prop :=
  ∀ k e, v k = some e → e.value input = (T.byteAt k).toNat

omit [DecidableEq Reg] in
/-- From `v` to `v'` some expressions that do not depend on the input are dropped. -/
def Fades (v v' : ShadowMap Reg) : Prop :=
  ∀ k, v' k = v k ∨ ¬ Symbolic v k ∧ v' k = none

/-- What reading may do to the shadow. -/
structure Aged (s s' : Shadow) : Prop where
  wellFormed : s'.WellFormed
  eflags : s'.eflags = s.eflags
  pages : s.memory.SamePages s'.memory
  fades : Fades (T.peek s) (T.peek s')

omit [DecidableEq Reg] in
/-- `x` is what an operand is read as: nothing, if it does not depend on the input, or an
expression of its value. -/
def Fetched (v : ShadowMap Reg) (o : Operand Reg) (x : Option Expr) : Prop :=
  match x with
  | none => ∀ k ∈ o.places T, ¬ Symbolic v k
  | some e => Expresses (o.size T * 8) (o.bv T v) e

omit [DecidableEq Reg] in
/-- Nothing is left at the operands. -/
def Empty (v : ShadowMap Reg) (os : List (Operand Reg)) : Prop :=
  ∀ o ∈ os, ∀ k ∈ o.places T, v k = none

variable {T} {σ : Session} {ok : MethodCall → Prop} {input : Input} {α : Type}
variable {s s₁ s₂ : Shadow} {v v' v'' : ShadowMap Reg} {o a b c : Operand Reg}
variable {x y : Option Expr} {os : List (Operand Reg)} {k : Place Reg}

omit [DecidableEq Reg] in
/-- What does not depend on the input has the value of the process. -/
theorem Consistent.byteValue (h : T.Consistent input v) (hk : ¬ Symbolic v k) (ρ : Input) :
    T.byteValue v ρ k = (T.byteAt k).toNat := by
  unfold Process.byteValue
  split
  next e he =>
      have hdeps : e.getDeps = ∅ := by
        by_contra hne
        exact hk ⟨e, he, hne⟩
      rw [← h k e he]
      exact value_congr fun i hi => by simp [hdeps] at hi
  next => rfl

omit [DecidableEq Reg] in
/-- The shadow stays consistent if expressions are only let go of. -/
theorem Consistent.of_kept (h : T.Consistent input v) (hv : ∀ k, v' k = none ∨ v' k = v k) :
    T.Consistent input v' := by
  intro k e he
  rcases hv k with hnone | hsame
  · exact nomatch hnone.symm.trans he
  · exact h k e (hsame ▸ he)

namespace Fades

omit [DecidableEq Reg]

theorem refl (v : ShadowMap Reg) : Fades v v :=
  fun _ => .inl rfl

theorem symbolic_iff (h : Fades v v') : Symbolic v' k ↔ Symbolic v k := by
  rcases h k with hsame | ⟨hnot, hnone⟩
  · simp only [Symbolic, hsame]
  · refine iff_of_false ?_ hnot
    rintro ⟨e, he, -⟩
    cases hnone.symm.trans he

theorem trans (h : Fades v v') (h' : Fades v' v'') : Fades v v'' := by
  intro k
  rcases h' k with hsame | ⟨hnot, hnone⟩
  · rw [hsame]
    exact h k
  · exact .inr ⟨mt h.symbolic_iff.2 hnot, hnone⟩

theorem eq_none (h : Fades v v') (hk : v k = none) : v' k = none := by
  rcases h k with hsame | ⟨-, hnone⟩
  · exact hsame.trans hk
  · exact hnone

theorem not_symbolic (h : Fades v v') (hk : v' k = none) : ¬ Symbolic v k := by
  rw [← h.symbolic_iff]
  rintro ⟨e, he, -⟩
  cases hk.symm.trans he

theorem empty (h : Fades v v') (he : T.Empty v os) : T.Empty v' os :=
  fun o ho k hk => h.eq_none (he o ho k hk)

theorem consistent (h : Fades v v') (hv : T.Consistent input v) : T.Consistent input v' :=
  hv.of_kept fun k => (h k).symm.imp_left And.right

theorem byteValue (h : Fades v v') (hv : T.Consistent input v) (ρ : Input) (k : Place Reg) :
    T.byteValue v' ρ k = T.byteValue v ρ k := by
  rcases h k with hsame | ⟨hnot, hnone⟩
  · rw [Process.byteValue, Process.byteValue, hsame]
  · rw [hv.byteValue hnot, Process.byteValue, hnone]

theorem bv (h : Fades v v') (hv : T.Consistent input v) (o : Operand Reg) :
    o.bv T v' = o.bv T v := by
  funext ρ
  rw [Operand.bv, Operand.bv, funext (h.byteValue hv ρ)]

theorem fetched (h : Fades v v') (hv : T.Consistent input v) (hx : T.Fetched v' o x) :
    T.Fetched v o x := by
  cases x with
  | none => exact fun k hk => mt h.symbolic_iff.2 (hx k hk)
  | some e => exact (hx : Expresses _ _ e).congr fun ρ => congrFun (h.bv hv o) ρ

end Fades

namespace Aged

theorem refl (hs : s.WellFormed) : T.Aged s s :=
  ⟨hs, rfl, .refl _, .refl _⟩

theorem trans (h : T.Aged s s₁) (h' : T.Aged s₁ s₂) : T.Aged s s₂ :=
  ⟨h'.wellFormed, h'.eflags.trans h.eflags, h.pages.trans h'.pages, h.fades.trans h'.fades⟩

end Aged

theorem Reads.aged (h : T.Reads s o x s₁) : T.Aged s s₁ :=
  ⟨h.wellFormed, h.eflags, h.pages, fun k => (h.loses k).imp_right fun h => h.2⟩

omit [DecidableEq Reg] in
theorem Carries.fetched (h : T.Carries v o x) : T.Fetched v o x := by
  cases x with
  | none => exact h.not_symbolic rfl
  | some e =>
      obtain ⟨ht, hbv⟩ := h.fits e rfl
      refine ⟨⟨hbv, fun ρ _ => ?_⟩, ht⟩
      apply BitVec.eq_of_toNat_eq
      rw [hbv.toNat_bv, h.value e rfl, Operand.bv, BitVec.toNat_ofNat, Nat.mod_eq_of_lt]
      rw [← h.value e rfl]
      exact hbv.value_lt ρ

/-! ### Reading -/

/-- `p` reads the operand `o`. -/
def Gets (σ : Session) (T : Process Reg) (p : Handler Reg (Option Expr)) (o : Operand Reg) : Prop :=
  ∀ s : Shadow, s.WellFormed → T.Consistent σ.input (T.peek s) →
    Ensures (body σ) exactly p s fun x s' _ =>
      T.Aged s s' ∧ T.Fetched (T.peek s) o x ∧ (x = none → T.Empty (T.peek s') [o])

omit [DecidableEq Reg] in
/-- `f` makes an expression of what the operand `o` is read as. -/
def Completes (σ : Session) (T : Process Reg) (f : Option Expr → Build Expr) (o : Operand Reg) :
    Prop :=
  ∀ v : ShadowMap Reg, T.Consistent σ.input v → ∀ x, T.Fetched v o x →
    Yields (body σ) exactly (f x) (Expresses (o.size T * 8) (o.bv T v))

omit [DecidableEq Reg] in
/-- Nothing has been read, and nothing is left at the operands, or what has been satisfies `R`. -/
def OrEmpty (T : Process Reg) (v : ShadowMap Reg) (os : List (Operand Reg)) (R : α → Prop)
    (x : Option α) : Prop :=
  match x with
  | none => T.Empty v os
  | some a => R a

/-- `p` reads operands. -/
def Fetches (σ : Session) (T : Process Reg) (p : Handler Reg (Option α)) (s : Shadow)
    (os : List (Operand Reg)) (R : α → Prop) : Prop :=
  Ensures (body σ) exactly p s fun x s' _ => T.Aged s s' ∧ T.OrEmpty (T.peek s') os R x

theorem Fetches.mono {p : Handler Reg (Option α)} {R R' : α → Prop} (h : Fetches σ T p s os R)
    (hR : ∀ a, R a → R' a) : Fetches σ T p s os R' := by
  refine Ensures.mono h fun x s' _ ⟨hs', hx⟩ => ⟨hs', ?_⟩
  cases x with
  | none => exact hx
  | some a => exact hR a hx

/-- What is known of operands that come to expressions. -/
theorem Fetches.and {p : Handler Reg (Option α)} {R : α → Prop} {D : Prop}
    (h : Fetches σ T p s os R) (hD : Ensures (body σ) exactly p s fun x _ _ => x ≠ none → D) :
    Fetches σ T p s os fun a => R a ∧ D := by
  refine (Ensures.and h hD).mono fun x s' _ ⟨⟨hs', hx⟩, hdep⟩ => ⟨hs', ?_⟩
  cases x with
  | none => exact hx
  | some a => exact ⟨hx, hdep nofun⟩

omit [DecidableEq Reg] in
/-- Two operands are given by their values. -/
abbrev PairOf (T : Process Reg) (v : ShadowMap Reg) (a b : Operand Reg) (x : Expr × Expr) : Prop :=
  Expresses (a.size T * 8) (a.bv T v) x.1 ∧ Expresses (b.size T * 8) (b.bv T v) x.2

omit [DecidableEq Reg] in
/-- An operand and an immediate of its width are given by their values. -/
abbrev ImmOf (T : Process Reg) (v : ShadowMap Reg) (a : Operand Reg) (imm : Addr)
    (x : Expr × Expr) :
    Prop :=
  Expresses (a.size T * 8) (a.bv T v) x.1 ∧
    Expresses (a.size T * 8) (fun _ => BitVec.ofNat _ imm.toNat) x.2

omit [DecidableEq Reg] in
/-- Two operands and an immediate of the width of the first are given by their values. -/
abbrev PairImmOf (T : Process Reg) (v : ShadowMap Reg) (a b : Operand Reg) (imm : Addr)
    (x : Expr × Expr × Expr) : Prop :=
  PairOf T v a b (x.1, x.2.1) ∧ Expresses (a.size T * 8) (fun _ => BitVec.ofNat _ imm.toNat) x.2.2

omit [DecidableEq Reg] in
/-- Three operands are given by their values. -/
abbrev TripleOf (T : Process Reg) (v : ShadowMap Reg) (a b c : Operand Reg)
    (x : Expr × Expr × Expr) : Prop :=
  Expresses (a.size T * 8) (a.bv T v) x.1 ∧ Expresses (b.size T * 8) (b.bv T v) x.2.1 ∧
    Expresses (c.size T * 8) (c.bv T v) x.2.2

/-- What is read after the shadow has aged is what was there before. -/
theorem Gets.after {p : Handler Reg (Option Expr)} (hp : Gets σ T p o) (hs : T.Aged s s₁)
    (hv : T.Consistent σ.input (T.peek s)) : Ensures (body σ) exactly p s₁ fun x s₂ _ =>
      T.Aged s s₂ ∧ T.Fetched (T.peek s) o x ∧ (x = none → T.Empty (T.peek s₂) [o]) ∧
        ∀ os, T.Empty (T.peek s₁) os → T.Empty (T.peek s₂) os := by
  refine (hp s₁ hs.wellFormed (hs.fades.consistent hv)).mono fun x s₂ _ ⟨hs₂, hx, he⟩ => ?_
  exact ⟨hs.trans hs₂, hs.fades.fetched hv hx, he, fun _ h => hs₂.fades.empty h⟩

section Gets

variable (hP : T.pin.Documented) (hb : T.builder = SymbolicExprBuilder.chain)
include hP hb

theorem get_gets (o : Operand Reg) : Gets σ T (o.get T) o := by
  intro s hs _
  refine (get_carries hb hs hP o).mono fun x s' _ ⟨hread, hx⟩ =>
    ⟨hread.aged, hx.fetched, fun hnone => ?_⟩
  exact List.forall_mem_singleton.2 fun k hk => (hread.cleared hnone).empty k hk

theorem makeAddrConcrete_aged (hs : s.WellFormed) (m : MemArg Reg) :
    Ensures (body σ) exactly (T.makeAddrConcrete m) s fun _ s' _ => T.Aged s s' := by
  refine ((makeAddrConcrete_loses hP hb hs m).and ((T.makeAddrConcrete_keepsEflags m s).and
    (T.makeAddrConcrete_keepsMemory m s))).mono ?_
  intro _ s' _ ⟨⟨hwf, hloses⟩, heq, hmemory⟩
  exact ⟨hwf, heq, hmemory ▸ .refl _, fun k => (hloses k).imp_right fun h => h.2⟩

theorem getExprFromMemSrc_gets (m : MemArg Reg) :
    Gets σ T (T.getExprFromMemSrc m) (.mem m.addr m.size) := by
  intro s hs hv
  refine Ensures.bind (makeAddrConcrete_aged hP hb hs m) fun _ s₁ _ h₁ => ?_
  have hget : Gets σ T (T.getExprFromMem m.addr m.size) (.mem m.addr m.size) :=
    get_gets hP hb (.mem m.addr m.size)
  exact (hget.after h₁ hv).mono fun x s' _ ⟨h', hx, he, _⟩ => ⟨h', hx, he⟩

omit hP hb [DecidableEq Reg] in
/-- What does not depend on the input has the value that it has in the process. -/
theorem Consistent.bv (hv : T.Consistent input v)
    (ho : ∀ k ∈ o.places T, ¬ Symbolic v k) (ρ : Input) :
    o.bv T v ρ = BitVec.ofNat _ (o.value T) :=
  congrArg _ (congrArg _ (List.map_congr_left fun k hk => hv.byteValue (ho k hk) ρ))

omit hP [DecidableEq Reg] in
theorem completes_constant (ho : 0 < o.size T) {f : Option Expr → Build Expr}
    (hsome : ∀ e, f (some e) = .ret e)
    (hnone : f none = T.builder.createConstant (o.value T) (o.size T * 8)) : Completes σ T f o := by
  intro v hv x hx
  cases x with
  | some e =>
      rw [hsome]
      exact .ret hx
  | none =>
      rw [hnone, hb]
      exact (createConstant_expresses _ (by omega)).mono fun e he => he.congr fun ρ =>
        (hv.bv hx ρ).symm

omit [DecidableEq Reg] in
theorem fixRegExpr_completes (r : Reg) : Completes σ T (T.fixRegExpr · r) (.reg r) :=
  completes_constant (o := .reg r) hb (hP.size_pos r) (fun _ => rfl) (by rw [value_reg]; rfl)

omit hP [DecidableEq Reg] in
theorem fixMemExpr_completes (addr : Addr) {n : Nat} (hn : 0 < n) :
    Completes σ T (T.fixMemExpr · addr n) (.mem addr n) :=
  completes_constant (o := .mem addr n) hb hn (fun _ => rfl) (by rw [value_mem]; rfl)

end Gets

/-! ### Pairs and triples -/

omit [DecidableEq Reg] in
theorem fixPair_yields {f g : Option Expr → Build Expr} (hf : Completes σ T f a)
    (hg : Completes σ T g b) (hv : T.Consistent σ.input v) (hx : T.Fetched v a x)
    (hy : T.Fetched v b y) :
    Yields (body σ) exactly (fixPair x y f g) fun z => match z with
      | none => x = none ∧ y = none
      | some p => PairOf T v a b p := by
  have hboth : Yields (body σ) exactly (do
      let e ← f x
      let e' ← g y
      return some (e, e')) fun z => match z with
        | none => x = none ∧ y = none
        | some p => PairOf T v a b p := by
    refine (hf v hv x hx).bind fun e he => ?_
    exact (hg v hv y hy).bind fun e' he' => .ret ⟨he, he'⟩
  unfold fixPair
  split
  next => exact .ret ⟨rfl, rfl⟩
  next => exact hboth

/-- Two operands one after the other. -/
theorem fetches_pair {p q : Handler Reg (Option Expr)} {f g : Option Expr → Build Expr}
    (hp : Gets σ T p a) (hq : Gets σ T q b) (hf : Completes σ T f a) (hg : Completes σ T g b)
    (hs : T.Aged s s₁) (hv : T.Consistent σ.input (T.peek s)) :
    Ensures (body σ) exactly (do
      let x ← p
      let y ← q
      (fixPair x y f g : Build _)) s₁ fun z s' _ => T.Aged s s' ∧
        (∀ os, T.Empty (T.peek s₁) os → T.Empty (T.peek s') os) ∧
          T.OrEmpty (T.peek s') [a, b] (PairOf T (T.peek s) a b) z := by
  refine Ensures.bind (hp.after hs hv) fun x s₂ _ ⟨h₂, hx, hxe, hfirst⟩ => ?_
  refine Ensures.bind (hq.after h₂ hv) fun y s₃ _ ⟨h₃, hy, hye, hkeep⟩ => ?_
  refine Ensures.lift (fixPair_yields hf hg hv hx hy) fun z hz =>
    ⟨h₃, fun os hos => hkeep os (hfirst os hos), ?_⟩
  cases z with
  | none =>
      have hleft := hkeep [a] (hxe hz.1)
      have hright := hye hz.2
      exact List.forall_mem_cons.2 ⟨hleft a List.mem_cons_self, hright⟩
  | some z => exact hz

/-- An operand with an immediate of its width. -/
theorem fetches_imm (hb : T.builder = SymbolicExprBuilder.chain) {p : Handler Reg (Option Expr)}
    (hp : Gets σ T p a) (ha : 0 < a.size T) (imm : Addr) (hs : T.Aged s s₁)
    (hv : T.Consistent σ.input (T.peek s)) :
    Ensures (body σ) exactly (do
      match ← p with
      | none => return none
      | some eDst => do
          let eSrc ← T.fixImmExpr none imm eDst.bits
          return some (eDst, eSrc)) s₁ fun z s' _ => T.Aged s s' ∧
            T.OrEmpty (T.peek s') [a] (ImmOf T (T.peek s) a imm) z := by
  refine Ensures.bind (hp.after hs hv) fun x s₂ _ ⟨h₂, hx, hxe, _⟩ => ?_
  cases x with
  | none => exact .ret ⟨h₂, hxe rfl⟩
  | some e =>
      have he : Expresses _ _ e := hx
      have himm : Yields (body σ) exactly (T.fixImmExpr none imm e.bits)
          (Expresses (a.size T * 8) fun _ => BitVec.ofNat _ imm.toNat) := by
        rw [he.bits, fixImmExpr, hb]
        exact createConstant_expresses _ (by omega)
      refine Ensures.bind (Ensures.lift (Q := fun e' s' _ => Expresses _ _ e' ∧ s' = s₂) himm
        fun e' he' => ⟨he', rfl⟩) ?_
      intro e' _ _ ⟨he', hs'⟩
      exact .ret ⟨hs' ▸ h₂, he, he'⟩

/-- A third operand comes before the other two. -/
theorem fetches_third {p : Handler Reg (Option Expr)} {q : Handler Reg (Option (Expr × Expr))}
    {f g h : Option Expr → Build Expr} (hp : Gets σ T p c)
    (hq : ∀ s₁, T.Aged s s₁ → Ensures (body σ) exactly q s₁ fun z s' _ => T.Aged s s' ∧
      (∀ os, T.Empty (T.peek s₁) os → T.Empty (T.peek s') os) ∧
        T.OrEmpty (T.peek s') [a, b] (PairOf T (T.peek s) a b) z)
    (hf : Completes σ T f a) (hg : Completes σ T g b) (hh : Completes σ T h c)
    (hs : T.Aged s s₁) (hv : T.Consistent σ.input (T.peek s)) :
    Ensures (body σ) exactly (do
      let z ← p
      let pair ← q
      (fixThird pair z f g h : Build _)) s₁ fun z s' _ => T.Aged s s' ∧
        T.OrEmpty (T.peek s') [a, b, c] (TripleOf T (T.peek s) a b c) z := by
  refine Ensures.bind (hp.after hs hv) fun x s₂ _ ⟨h₂, hx, hxe, _⟩ => ?_
  refine Ensures.bind (hq s₂ h₂) fun pair s₃ _ ⟨h₃, hkeep, hpair⟩ => ?_
  have hfirst : T.Fetched (T.peek s) a (pair.map Prod.fst) ∧
      T.Fetched (T.peek s) b (pair.map Prod.snd) := by
    cases pair with
    | none =>
        have hnot (o : Operand Reg) (ho : o ∈ [a, b]) (k : Place Reg) (hk : k ∈ o.places T) :
            ¬ Symbolic (T.peek s) k := h₃.fades.not_symbolic (hpair o ho k hk)
        exact ⟨hnot a List.mem_cons_self, hnot b (by simp)⟩
    | some z => exact hpair
  have hall : Yields (body σ) exactly (do
      let dst ← f (pair.map Prod.fst)
      let src ← g (pair.map Prod.snd)
      let third ← h x
      return some (dst, src, third)) fun z => match z with
        | none => pair = none ∧ x = none
        | some z => TripleOf T (T.peek s) a b c z := by
    refine (hf _ hv _ hfirst.1).bind fun e he => ?_
    refine (hg _ hv _ hfirst.2).bind fun e' he' => ?_
    exact (hh _ hv _ hx).bind fun e'' he'' => .ret ⟨he, he', he''⟩
  have hfix : Yields (body σ) exactly (fixThird pair x f g h) fun z => match z with
      | none => pair = none ∧ x = none
      | some z => TripleOf T (T.peek s) a b c z := by
    unfold fixThird
    split
    next => exact .ret ⟨rfl, rfl⟩
    next => exact hall
  refine Ensures.lift hfix fun z hz => ⟨h₃, ?_⟩
  cases z with
  | none =>
      obtain ⟨rfl, rfl⟩ := hz
      have hlast := hkeep [c] (hxe rfl)
      intro o ho
      rcases List.mem_cons.1 ho with rfl | ho
      · exact hpair o List.mem_cons_self
      · rcases List.mem_cons.1 ho with rfl | ho
        · exact hpair o (by simp)
        · exact hlast o ho
  | some z => exact hz

/-! ### The operands of handlers -/

section Operands

variable (hP : T.pin.Documented) (hb : T.builder = SymbolicExprBuilder.chain) (hs : s.WellFormed)
  (hv : T.Consistent σ.input (T.peek s))
include hP hb hs hv

omit hP hb in
theorem fetches_get {p : Handler Reg (Option Expr)} (hp : Gets σ T p o) :
    Fetches σ T p s [o] (Expresses (o.size T * 8) (o.bv T (T.peek s))) := by
  refine (hp s hs hv).mono fun x s' _ ⟨h, hx, he⟩ => ⟨h, ?_⟩
  cases x with
  | none => exact he rfl
  | some e => exact hx

theorem getExprFromRegReg_fetches (dst src : Reg) :
    Fetches σ T (T.getExprFromRegReg dst src) s [.reg dst, .reg src]
      (PairOf T (T.peek s) (.reg dst) (.reg src)) :=
  (fetches_pair (get_gets hP hb (.reg dst)) (get_gets hP hb (.reg src))
    (fixRegExpr_completes hP hb dst)
    (fixRegExpr_completes hP hb src) (.refl hs) hv).mono fun _ _ _ h => ⟨h.1, h.2.2⟩

theorem getExprFromRegMem_fetches (dst : Reg) {m : MemArg Reg} (hm : 0 < m.size) :
    Fetches σ T (T.getExprFromRegMem dst m) s [.reg dst, .mem m.addr m.size]
      (PairOf T (T.peek s) (.reg dst) (.mem m.addr m.size)) :=
  (fetches_pair (get_gets hP hb (.reg dst)) (getExprFromMemSrc_gets hP hb m)
    (fixRegExpr_completes hP hb dst) (fixMemExpr_completes hb m.addr hm) (.refl hs) hv).mono
      fun _ _ _ h => ⟨h.1, h.2.2⟩

omit hs in
/-- The operands after the address. -/
theorem getExprFromMemReg_after {m : MemArg Reg} (hm : 0 < m.size) (src : Reg)
    (h₁ : T.Aged s s₁) : Ensures (body σ) exactly (T.getExprFromMemReg m src) s₁ fun z s' _ =>
      T.Aged s s' ∧ (∀ os, T.Empty (T.peek s₁) os → T.Empty (T.peek s') os) ∧ T.OrEmpty (T.peek s')
        [.mem m.addr m.size, .reg src] (PairOf T (T.peek s) (.mem m.addr m.size) (.reg src)) z := by
  refine Ensures.bind (makeAddrConcrete_aged hP hb h₁.wellFormed m) fun _ s₂ _ h₂ => ?_
  refine (fetches_pair (get_gets hP hb (.mem m.addr m.size)) (get_gets hP hb (.reg src))
    (fixMemExpr_completes hb m.addr hm) (fixRegExpr_completes hP hb src) (h₁.trans h₂) hv).mono ?_
  exact fun _ _ _ ⟨h, hkeep, hz⟩ => ⟨h, fun os hos => hkeep os (h₂.fades.empty hos), hz⟩

theorem getExprFromMemReg_fetches {m : MemArg Reg} (hm : 0 < m.size) (src : Reg) :
    Fetches σ T (T.getExprFromMemReg m src) s [.mem m.addr m.size, .reg src]
      (PairOf T (T.peek s) (.mem m.addr m.size) (.reg src)) :=
  (getExprFromMemReg_after hP hb hv hm src (.refl hs)).mono fun _ _ _ h => ⟨h.1, h.2.2⟩

theorem getExprFromRegImm_fetches (dst : Reg) (imm : Addr) :
    Fetches σ T (T.getExprFromRegImm dst imm) s [.reg dst] (ImmOf T (T.peek s) (.reg dst) imm) :=
  fetches_imm (a := .reg dst) hb (get_gets hP hb (.reg dst)) (hP.size_pos dst) imm (.refl hs) hv

theorem getExprFromMemImm_fetches {m : MemArg Reg} (hm : 0 < m.size) (imm : Addr) :
    Fetches σ T (T.getExprFromMemImm m imm) s [.mem m.addr m.size]
      (ImmOf T (T.peek s) (.mem m.addr m.size) imm) := by
  refine Ensures.bind (makeAddrConcrete_aged hP hb hs m) fun _ s₁ _ h₁ => ?_
  exact fetches_imm (a := .mem m.addr m.size) hb (get_gets hP hb (.mem m.addr m.size)) hm imm h₁ hv

omit hP hs hv in
/-- An immediate comes after the operands. -/
theorem fetches_withImm {p : Handler Reg (Option (Expr × Expr))} (ha : 0 < a.size T) (imm : Addr)
    (h : Fetches σ T p s [a, b] (PairOf T (T.peek s) a b)) :
    Fetches σ T (do
      let pair ← p
      (T.withImm pair imm (a.size T * 8) : Build _)) s [a, b] (PairImmOf T (T.peek s) a b imm) := by
  refine Ensures.bind h fun pair s₁ _ ⟨h₁, hpair⟩ => ?_
  cases pair with
  | none => exact Ensures.lift (P := fun z => z = none) (.ret rfl) fun z hz => ⟨h₁, hz ▸ hpair⟩
  | some x =>
      have himm : Yields (body σ) exactly (T.fixImmExpr none imm (a.size T * 8))
          (Expresses (a.size T * 8) fun _ => BitVec.ofNat _ imm.toNat) := by
        rw [fixImmExpr, hb]
        exact createConstant_expresses _ (by omega)
      have hall : Yields (body σ) exactly (T.withImm (some x) imm (a.size T * 8)) fun z =>
          ∃ e, z = some (x.1, x.2, e) ∧
            Expresses (a.size T * 8) (fun _ => BitVec.ofNat _ imm.toNat) e :=
        himm.bind fun e he => .ret ⟨e, rfl, he⟩
      exact Ensures.lift hall fun z ⟨e, hz, he⟩ => ⟨h₁, hz ▸ ⟨hpair, he⟩⟩

theorem getExprFromRegRegImm_fetches (dst src : Reg) (imm : Addr) :
    Fetches σ T (T.getExprFromRegRegImm dst src imm) s [.reg dst, .reg src]
      (PairImmOf T (T.peek s) (.reg dst) (.reg src) imm) :=
  fetches_withImm (a := .reg dst) hb (hP.size_pos dst) imm
    (getExprFromRegReg_fetches hP hb hs hv dst src)

theorem getExprFromMemRegImm_fetches {m : MemArg Reg} (hm : 0 < m.size) (src : Reg) (imm : Addr) :
    Fetches σ T (T.getExprFromMemRegImm m src imm) s [.mem m.addr m.size, .reg src]
      (PairImmOf T (T.peek s) (.mem m.addr m.size) (.reg src) imm) :=
  fetches_withImm (a := .mem m.addr m.size) hb hm imm (getExprFromMemReg_fetches hP hb hs hv hm src)

theorem getExprFromRegRegReg_fetches (dst src1 src2 : Reg) :
    Fetches σ T (T.getExprFromRegRegReg dst src1 src2) s [.reg dst, .reg src1, .reg src2]
      (TripleOf T (T.peek s) (.reg dst) (.reg src1) (.reg src2)) :=
  fetches_third (get_gets hP hb (.reg src2)) (fun _ h₁ => fetches_pair (get_gets hP hb (.reg dst))
      (get_gets hP hb (.reg src1)) (fixRegExpr_completes hP hb dst)
        (fixRegExpr_completes hP hb src1)
      h₁ hv)
    (fixRegExpr_completes hP hb dst) (fixRegExpr_completes hP hb src1)
    (fixRegExpr_completes hP hb src2) (.refl hs) hv

theorem getExprFromMemRegReg_fetches {m : MemArg Reg} (hm : 0 < m.size) (src1 src2 : Reg) :
    Fetches σ T (T.getExprFromMemRegReg m src1 src2) s [.mem m.addr m.size, .reg src1, .reg src2]
      (TripleOf T (T.peek s) (.mem m.addr m.size) (.reg src1) (.reg src2)) :=
  fetches_third (get_gets hP hb (.reg src2))
    (fun _ h₁ => getExprFromMemReg_after hP hb hv hm src1 h₁)
    (fixMemExpr_completes hb m.addr hm) (fixRegExpr_completes hP hb src1)
    (fixRegExpr_completes hP hb src2) (.refl hs) hv

end Operands

end Process

end Qsym
