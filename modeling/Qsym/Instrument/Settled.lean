import Qsym.Instrument.Place

/-!
# Qsym.Instrument.Settled

What the solver has been told about a place. A place is **settled** by a log if the log has
an equation for an operand there and the equation forces the byte at the place to be the
one the process has (`Settled`). Concretisation settles the places of its operand
(`Concretized`).
-/

namespace Qsym

open Procedure Qsym.Expr

/-- A request that makes an operand equal to a value. -/
def Request.Equates {Reg : Type} (q : Request Reg) (o : Operand Reg) (e : Expr) (v : Nat) : Prop :=
  q = .addValue o e v ∨ q = .solveAll o e v

namespace Process

open Handler Stateful

variable {Reg : Type} [DecidableEq Reg] (T : Process Reg)

/-- An expression of an operand whose value fixes the bytes in `v`. -/
def Fixes (v : ShadowMap Reg) (o : Operand Reg) (e : Expr) : Prop :=
  ∀ ρ, e.value ρ = o.value T → ∀ k ∈ o.places T, T.byteValue v ρ k = (T.byteAt k).toNat

/-- The log has an equation that fixes the byte at a place of `v`. -/
def Settled (v : ShadowMap Reg) (l : List (Request Reg)) (k : Place Reg) : Prop :=
  ∃ q ∈ l, ∃ o e, q.Equates o e (o.value T) ∧ k ∈ o.places T ∧
    ∀ ρ, e.value ρ = o.value T → T.byteValue v ρ k = (T.byteAt k).toNat

/-- What concretising an operand does. -/
structure Concretized (s : Shadow) (o : Operand Reg) (s' : Shadow) (l : List (Request Reg)) :
    Prop where
  eflags : s'.eflags = s.eflags
  wellFormed : s'.WellFormed
  null : T.ReadsNull (T.peek s) o → l = [] ∧ T.Cleared s (· ∈ o.places T) s'
  equation : ¬ T.ReadsNull (T.peek s) o →
    (∃ e, l = [.addValue o e (o.value T)] ∧ T.Fixes (T.peek s) o e) ∧
      T.Cleared s (· ∈ o.dropped T) s'

section

variable {T} {σ : Session} {ok : MethodCall → Prop} {s s' : Shadow} {o : Operand Reg}
variable {v v' : ShadowMap Reg} {l l' : List (Request Reg)} {k : Place Reg}

omit [DecidableEq Reg] in
theorem ReadsNull.not_symbolic (h : T.ReadsNull v o) (hk : k ∈ o.places T) : ¬ Symbolic v k := by
  cases o with
  | mem addr size => exact h k hk
  | reg r =>
      rw [ReadsNull] at h
      split at h
      next =>
          rintro ⟨e, he, -⟩
          cases he.symm.trans (h k hk)
      next => exact h k hk

omit [DecidableEq Reg] in
theorem readsNull_of_empty (h : ∀ k ∈ o.places T, v k = none) : T.ReadsNull v o := by
  have hsymbolic (k : Place Reg) (hk : k ∈ o.places T) : ¬ Symbolic v k := by
    rintro ⟨e, he, -⟩
    exact nomatch he.symm.trans (h k hk)
  cases o with
  | mem addr size => exact hsymbolic
  | reg r =>
      rw [ReadsNull]
      split
      next => exact h
      next => exact hsymbolic

omit [DecidableEq Reg] in
theorem Settled.mono (h : T.Settled v l k) (hl : l ⊆ l') : T.Settled v l' k := by
  obtain ⟨q, hq, hs⟩ := h
  exact ⟨q, hl hq, hs⟩

omit [DecidableEq Reg] in
theorem Settled.congr (h : T.Settled v l k) (hv : v' k = v k) : T.Settled v' l k := by
  obtain ⟨q, hq, o, e, he, hk, hfix⟩ := h
  refine ⟨q, hq, o, e, he, hk, fun ρ hρ => ?_⟩
  rw [← hfix ρ hρ, byteValue, byteValue, hv]

omit [DecidableEq Reg] in
theorem settled_append :
    T.Settled v (l ++ l') k ↔ T.Settled v l k ∨ T.Settled v l' k := by
  simp only [Settled, List.mem_append, or_and_right, exists_or]

omit [DecidableEq Reg] in
theorem Fixes.settled {q : Request Reg} {e : Expr} (h : T.Fixes v o e)
    (hq : q.Equates o e (o.value T)) (hk : k ∈ o.places T) (hl : q ∈ l) : T.Settled v l k :=
  ⟨q, hl, o, e, hq, hk, fun ρ hρ => h ρ hρ k hk⟩

/-- An expression is let go of or stays. -/
theorem Concretized.none_or_eq (h : T.Concretized s o s' l) (k : Place Reg) :
    T.peek s' k = none ∨ T.peek s' k = T.peek s k := by
  by_cases hnull : T.ReadsNull (T.peek s) o
  · exact (h.null hnull).2.none_or_eq k
  · exact (h.equation hnull).2.none_or_eq k

theorem byteValue_lt (hs : s.WellFormed) (ρ : Input) (k : Place Reg) :
    T.byteValue (T.peek s) ρ k < 256 := by
  unfold byteValue
  split
  next e he =>
      have hbyte : e.IsBV 8 := by
        cases k with
        | mem a => exact (hs.memory a e he).2
        | reg f i =>
            simp only [peek, Pin.peekByte] at he
            split at he
            next =>
                split at he
                next addr _ => exact (hs.regs _ e he).2
                next => cases he
            next => cases he
      exact hbyte.value_lt ρ
  next => exact (T.byteAt k).isLt

/-- An expression that was read fixes the bytes it was put together from. -/
theorem Reads.fixes {e : Expr} (hs : s.WellFormed) (h : T.Reads s o (some e) s') :
    T.Fixes (T.peek s) o e := by
  intro ρ hρ k hk
  have hlists : (o.places T).map (T.byteValue (T.peek s) ρ) =
      (o.places T).map fun k => (T.byteAt k).toNat := by
    refine Bytes.littleEndian_inj ?_ ((h.value e rfl ρ).symm.trans hρ)
    rw [List.forall₂_map_left_iff, List.forall₂_map_right_iff, List.forall₂_same]
    exact fun k _ => ⟨byteValue_lt hs ρ k, (T.byteAt k).isLt⟩
  exact List.map_inj_left.1 hlists k hk

omit [DecidableEq Reg] in
theorem value_reg (r : Reg) : (Operand.reg r).value T = T.getRegValue r := by
  rw [Operand.value, getRegValue, regBytes, Operand.places, List.map_map]
  rfl

omit [DecidableEq Reg] in
theorem value_mem (addr : Addr) (size : Nat) :
    (Operand.mem addr size).value T = T.getMemValue addr size := by
  rw [Operand.value, getMemValue, Operand.places, List.map_map]
  rfl

/-- Concretising what was read: nothing, or an equation and a clear. -/
theorem Reads.concretized {x : Option Expr} {s₁ : Shadow} {clear : Handler Reg Unit}
    (hs : s.WellFormed) (h : T.Reads s o x s₁)
    (hclear : ∀ s, Ensures (body σ) ok clear s fun _ s' l => l = [] ∧ s'.eflags = s.eflags ∧
      T.Cleared s (· ∈ o.dropped T) s' ∧ (s.WellFormed → s'.WellFormed)) :
    Ensures (body σ) ok
      (match x with
        | none => return ()
        | some e => do
            request (.addValue o e (o.value T))
            clear)
      s₁ fun _ s' l => T.Concretized s o s' l := by
  cases x with
  | none =>
      have hnull := h.none_iff.1 rfl
      exact .ret ⟨h.eflags, h.wellFormed, fun _ => ⟨rfl, h.cleared rfl⟩, fun hn => absurd hnull hn⟩
  | some e =>
      obtain rfl := h.same nofun
      have hn : ¬ T.ReadsNull (T.peek s₁) o := fun hn => nomatch h.none_iff.2 hn
      refine Ensures.bind (Ensures.tell (P := fun _ s' l =>
        s' = s₁ ∧ l = [.addValue o e (o.value T)]) ⟨rfl, rfl⟩) ?_
      rintro _ _ _ ⟨rfl, rfl⟩
      refine (hclear _).mono ?_
      rintro _ s' _ ⟨rfl, he, hcleared, hwf⟩
      exact ⟨he, hwf hs, fun hn' => absurd hn' hn, fun _ => ⟨⟨e, rfl, h.fixes hs⟩, hcleared⟩⟩

theorem concretizeReg_concretized (hP : T.pin.Documented)
    (hb : T.builder = SymbolicExprBuilder.chain) (hs : s.WellFormed) (r : Reg) :
    Ensures (body σ) ok (T.concretizeReg r) s fun _ s' l => T.Concretized s (.reg r) s' l := by
  refine Ensures.bind (getExprFromReg_reads hP hb hs r) ?_
  rintro x s₁ _ ⟨rfl, hread⟩
  have hclear (s : Shadow) : Ensures (body σ) ok (T.clearExprFromReg r) s _ :=
    clearExprFromReg_cleared hP r
  have h := hread.concretized hs hclear
  rw [value_reg] at h
  exact h

theorem concretizeMem_concretized (hb : T.builder = SymbolicExprBuilder.chain)
    (hs : s.WellFormed) (addr : Addr) (size : Nat) :
    Ensures (body σ) ok (T.concretizeMem addr size) s fun _ s' l =>
      T.Concretized s (.mem addr size) s' l := by
  refine Ensures.bind (getExprFromMem_reads hb hs addr size) ?_
  rintro x s₁ _ ⟨rfl, hread⟩
  have hclear (s : Shadow) :
      Ensures (body σ) ok (clearExprFromMem addr size : Handler Reg Unit) s _ :=
    clearExprFromMem_cleared (T := T) addr size
  have h := hread.concretized hs hclear
  rw [value_mem] at h
  exact h

end

end Process

end Qsym
