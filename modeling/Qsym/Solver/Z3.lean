import Qsym.Expr.ToZ3

/-!
# Qsym.Solver.Z3

What the engine sees of **Z3**: an assertion stack that is pushed and popped, checks, and
models.

Z3 is not part of the engine, so its answers are a parameter. `Z3.Correct` states what its
documentation promises for terms over the bytes of an input: `sat` comes with a model that
satisfies the assertions, whatever the bytes are that it leaves out, `unsat` means that no
input does. A solver that tries every input is correct (`bruteForce_correct`), so the
promise can be kept.
-/

namespace Qsym

open Smt

/-- `z3::model`: the numbers of the constants that it interprets, and its evaluation. -/
structure Z3Model where
  consts : List (Nat × Nat)
  eval : Term → Term

inductive CheckResult
  | sat (model : Z3Model)
  | unsat
  | unknown

/-- The answers of Z3. `check n` is about the check number `n`, so nothing ties two checks of
the same assertions together. -/
structure Z3 where
  check : Nat → List Term → CheckResult
  simplify : Term → Term

/-- `z3::solver`: the assertions, the ones that each `push` found, the number of checks so
far, and the model of the last one. -/
structure Z3Solver where
  assertions : List Term
  scopes : List (List Term)
  checks : Nat
  model : Option Z3Model

namespace Z3Solver

variable (s : Z3Solver)

def push : Z3Solver :=
  { s with scopes := s.assertions :: s.scopes }

/-- A `pop` without a `push` is an error. -/
def pop : Option Z3Solver :=
  match s.scopes with
  | [] => none
  | assertions :: scopes => some { s with assertions, scopes }

def reset : Z3Solver :=
  { s with assertions := [], scopes := [], model := none }

def add (t : Term) : Z3Solver :=
  { s with assertions := s.assertions ++ [t] }

def check (z : Z3) : CheckResult × Z3Solver :=
  let answer := z.check s.checks s.assertions
  (answer, { s with
    checks := s.checks + 1
    model := match answer with
      | .sat model => some model
      | _ => none })

end Z3Solver

/-! ### Meaning -/

/-- The input makes all terms true. -/
def Holds (ρ : Input) (terms : List Term) : Prop :=
  ∀ t ∈ terms, t.eval (Expr.symbols ρ) = some (.bool true)

/-- The symbols of the term are among the first `size` input bytes. -/
def OverBytes (size : Nat) (t : Term) : Prop :=
  ∀ x ∈ t.symbols, x.2 = 8 ∧ x.1 < size

instance (size : Nat) (t : Term) : Decidable (OverBytes size t) :=
  inferInstanceAs (Decidable (∀ _ ∈ _, _))

/-- The input has the numbers of the model. -/
def Z3Model.Fits (m : Z3Model) (ρ : Input) : Prop :=
  ∀ c ∈ m.consts, ρ c.1 = BitVec.ofNat 8 c.2

namespace Z3

/-- What Z3 promises for assertions over the first `size` input bytes: it decides them, a
model interprets each byte at most once, and simplifying changes no value. -/
structure Correct (z : Z3) (size : Nat) : Prop where
  sat : ∀ {n terms m}, (∀ t ∈ terms, OverBytes size t) → z.check n terms = .sat m →
    (m.consts.map Prod.fst).Nodup ∧ (∀ c ∈ m.consts, c.1 < size) ∧
      ∀ ρ, m.Fits ρ → Holds ρ terms
  unsat : ∀ {n terms}, (∀ t ∈ terms, OverBytes size t) → z.check n terms = .unsat →
    ∀ ρ, ¬ Holds ρ terms
  decides : ∀ {n terms}, (∀ t ∈ terms, OverBytes size t) → z.check n terms ≠ .unknown
  simplify_eval : ∀ t ρ, (z.simplify t).eval ρ = t.eval ρ
  simplify_symbols : ∀ t, (z.simplify t).symbols ⊆ t.symbols

/-- The models of `z` give `e` a number: its value under every input with the numbers of
the model. -/
def Evaluates (z : Z3) (size : Nat) (e : Term) (n : Nat) : Prop :=
  ∀ k terms m, (∀ t ∈ terms, OverBytes size t) → z.check k terms = .sat m →
    ∃ v : BitVec n, m.eval e = .bv n v ∧
      ∀ ρ, m.Fits ρ → e.eval (Expr.symbols ρ) = some (.bv n v)

end Z3

variable {ρ ρ' : Input} {size : Nat} {t e : Term} {terms terms' : List Term}

theorem OverBytes.eval_congr (h : OverBytes size t) (hρ : ∀ i < size, ρ i = ρ' i) :
    t.eval (Expr.symbols ρ) = t.eval (Expr.symbols ρ') := by
  refine Term.eval_congr fun x hx => ?_
  rw [Expr.symbols, Expr.symbols, hρ _ (h x hx).2]

theorem Holds.congr (h : Holds ρ terms) (hterms : ∀ t ∈ terms, OverBytes size t)
    (hρ : ∀ i < size, ρ i = ρ' i) : Holds ρ' terms :=
  fun t ht => ((hterms t ht).eval_congr hρ).symm.trans (h t ht)

theorem holds_append : Holds ρ (terms ++ terms') ↔ Holds ρ terms ∧ Holds ρ terms' := by
  simp only [Holds, List.forall_mem_append]

theorem holds_singleton : Holds ρ [t] ↔ t.eval (Expr.symbols ρ) = some (.bool true) := by
  simp [Holds]

/-! ### A correct solver -/

/-- The bytes as an input; what lies behind them is zero. -/
def inputOf (values : List (BitVec 8)) : Input :=
  fun i => values.getD i 0

/-- All lists of `size` bytes. -/
def allBytes : Nat → List (List (BitVec 8))
  | 0 => [[]]
  | size + 1 => (allBytes size).flatMap fun values =>
      (List.finRange (2 ^ 8)).map fun v => .ofFin v :: values

theorem mem_allBytes {values : List (BitVec 8)} :
    values ∈ allBytes size ↔ values.length = size := by
  induction size generalizing values with
  | zero => simp [allBytes]
  | succ size ih =>
      simp only [allBytes, List.mem_flatMap, List.mem_map, List.mem_finRange, true_and]
      cases values with
      | nil => simp
      | cons v values =>
          simp only [List.cons.injEq, List.length_cons, Nat.add_right_cancel_iff]
          constructor
          · rintro ⟨_, hmem, _, _, rfl⟩
            exact ih.1 hmem
          · exact fun h => ⟨values, ih.2 h, v.toFin, rfl, rfl⟩

instance (ρ : Input) (terms : List Term) : Decidable (Holds ρ terms) :=
  inferInstanceAs (Decidable (∀ _ ∈ _, _))

namespace Z3

/-- The model of an input of which every byte is known. -/
def modelOf (values : List (BitVec 8)) : Z3Model where
  consts := values.zipIdx.map fun c => (c.2, c.1.toNat)
  eval t := match t.eval (Expr.symbols (inputOf values)) with
    | some (.bv n v) => .bv n v
    | some (.bool b) => .bool b
    | none => t

/-- A solver that tries every input of `size` bytes. -/
def bruteForce (size : Nat) : Z3 where
  check _ terms := match (allBytes size).find? fun values => Holds (inputOf values) terms with
    | some values => .sat (modelOf values)
    | none => .unsat
  simplify t := t

theorem modelOf_fits {values : List (BitVec 8)} (h : (modelOf values).Fits ρ) :
    ∀ i < values.length, ρ i = inputOf values i := by
  intro i hi
  have hmem : (i, values[i].toNat) ∈ (modelOf values).consts :=
    List.mem_map.2 ⟨(values[i], i), List.mk_mem_zipIdx_iff_getElem?.2
      (List.getElem?_eq_getElem hi), rfl⟩
  have hρ := h _ hmem
  simp only [BitVec.ofNat_toNat, BitVec.setWidth_eq] at hρ
  rw [hρ, inputOf, List.getD_eq_getElem _ _ hi]

/-- The answer of an exhaustive search. -/
theorem bruteForce_sat {k : Nat} {m : Z3Model} (h : (bruteForce size).check k terms = .sat m) :
    ∃ values, values.length = size ∧ m = modelOf values ∧ Holds (inputOf values) terms := by
  simp only [bruteForce] at h
  split at h
  next values hfind =>
      cases h
      exact ⟨values, mem_allBytes.1 (List.mem_of_find?_eq_some hfind), rfl,
        by simpa using List.find?_some hfind⟩
  next => cases h

theorem bruteForce_correct (size : Nat) : (bruteForce size).Correct size := by
  refine ⟨fun {n terms m} hterms h => ?_, fun {n terms} hterms h ρ hρ => ?_,
    fun {n terms} _ h => ?_, fun _ _ => rfl, fun t => List.Subset.refl _⟩
  · obtain ⟨values, rfl, rfl, hholds⟩ := bruteForce_sat h
    have hfst : (modelOf values).consts.map Prod.fst = List.range values.length := by
      simp [modelOf, Function.comp_def, List.zipIdx_map_snd, List.range_eq_range']
    refine ⟨hfst ▸ List.nodup_range, fun c hc => ?_, fun ρ hfits => ?_⟩
    · rw [← List.mem_range, ← hfst]
      exact List.mem_map_of_mem hc
    · exact hholds.congr hterms fun i hi => (modelOf_fits hfits i hi).symm
  · -- the first bytes of the input would have been found
    have hholds : Holds (inputOf ((List.range size).map ρ)) terms := by
      refine hρ.congr hterms fun i hi => ?_
      simp [inputOf, List.getD_eq_getElem?_getD, hi]
    simp only [bruteForce] at h
    split at h
    next => cases h
    next hfind =>
        rw [List.find?_eq_none] at hfind
        exact hfind _ (mem_allBytes.2 (by simp)) (decide_eq_true hholds)
  · simp only [bruteForce] at h
    split at h <;> cases h

theorem bruteForce_evaluates (he : OverBytes size e) {n : Nat}
    (hn : ∀ ρ, ∃ v : BitVec n, e.eval (Expr.symbols ρ) = some (.bv n v)) :
    (bruteForce size).Evaluates size e n := by
  intro k terms m _ h
  obtain ⟨values, rfl, rfl, -⟩ := bruteForce_sat h
  obtain ⟨v, hv⟩ := hn (inputOf values)
  refine ⟨v, by simp only [modelOf, hv], fun ρ hfits => ?_⟩
  rw [he.eval_congr (modelOf_fits hfits), hv]

end Z3

end Qsym
