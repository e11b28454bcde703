import Qsym.Search.Blocking
import Qsym.Solver.Record
import Qsym.Solver.Z3

/-!
# Qsym.Solver.Extremum

The **search loops** of `Solver`: check, save the model as a test case, block the value that
the model gives to an expression, and check again until nothing is left.

`getMinValue` and `getMaxValue` block everything that is not below (above) the value found.
One loop with the bound as a parameter stands for both. Its rounds are those of
`Search.Rounds`, over the inputs that satisfy the assertions, so it ends and the last value
is the extremum (`getMinValue_getMaxValue`).
-/

namespace Qsym

open Smt

/-- A test case: the file that it is written to, or none when it is printed, and its bytes. -/
structure TestCase where
  file : Option String
  values : List (BitVec 8)
  deriving DecidableEq

/-- `Solver`, with the test cases that it has put out. -/
structure Solver where
  inputs_ : List (BitVec 8)
  out_dir_ : String
  solver_ : Z3Solver
  num_generated_ : Nat
  last_interested_ : Bool
  dep_forest_ : DependencyForest Expr
  saved : List TestCase

/-- `snprintf(buf, 7, "%06d", val)` -/
def toString6digit (val : Nat) : String :=
  let digits := Nat.toDigits 10 val
  String.ofList ((List.replicate (6 - digits.length) '0' ++ digits).take 6)

namespace Solver

variable (s : Solver) (z : Z3)

def push : Solver :=
  { s with solver_ := s.solver_.push }

def pop : Option Solver :=
  s.solver_.pop.map fun solver_ => { s with solver_ }

def reset : Solver :=
  { s with solver_ := s.solver_.reset }

/-- `solver_.add(expr)` -/
def addExpr (expr : Term) : Solver :=
  { s with solver_ := s.solver_.add expr }

/-- Constants are not added, whatever they say. -/
def add (expr : Term) : Solver :=
  if expr.isConst then s else s.addExpr (z.simplify expr)

def check : CheckResult × Solver :=
  let (res, solver_) := s.solver_.check z
  (res, { s with solver_ })

/-- The input with the bytes that the model interprets. Writing behind it is an error. -/
def getConcreteValues : Option (List (BitVec 8)) := do
  let m ← s.solver_.model
  m.consts.foldlM (fun values c =>
    if c.1 < values.length then some (values.set c.1 (BitVec.ofNat 8 c.2)) else none) s.inputs_

/-- `fname` in `saveValues`. -/
def fname (suffix : String) : String :=
  let fname := s.out_dir_ ++ "/" ++ toString6digit s.num_generated_
  if suffix = "" then fname else fname ++ "-" ++ suffix

/-- Without an output directory the values are printed. -/
def saveValues (suffix : String) : Option Solver := do
  let values ← s.getConcreteValues
  if s.out_dir_ = "" then
    return { s with saved := s.saved ++ [⟨none, values⟩] }
  else
    return { s with
      saved := s.saved ++ [⟨some (s.fname suffix), values⟩]
      num_generated_ := s.num_generated_ + 1 }

def checkAndSave (suffix : String) : Option (Bool × Solver) :=
  match s.check z with
  | (.sat _, s) => do return (true, ← s.saveValues suffix)
  | (_, s) => some (false, s)

def getPossibleValue (z3_expr : Term) : Option Term := do
  let m ← s.solver_.model
  return m.eval z3_expr

/-- The loop of `getMinValue`, `getMaxValue` and `solveAll`, for at most `fuel` checks. They
differ in how they block a value; it starts with the value `value`. -/
def searchLoop (suffix : String) (block : Term → Solver → Solver) (z3_expr : Term) :
    Nat → Solver → Option Term → Option (Option Term × Solver)
  | 0, _, _ => none
  | fuel + 1, s, value => do
      let (sat, s) ← s.checkAndSave z suffix
      if sat then
        let value ← s.getPossibleValue z3_expr
        searchLoop suffix block z3_expr fuel (block value s) (some value)
      else return (value, s)

/-- `getMinValue` and `getMaxValue`, with the order of their bounds. -/
def getExtremum (bound : BVPred) (z3_expr : Term) (fuel : Nat) : Option (Option Term × Solver) := do
  let s := s.push
  let block value s := addExpr s (.bvpred bound z3_expr value)
  let (value, s) ← searchLoop z "" block z3_expr fuel s none
  let s ← s.pop
  return (value, s)

def getMinValue (z3_expr : Term) (fuel : Nat) : Option (Option Term × Solver) :=
  s.getExtremum z .bvult z3_expr fuel

def getMaxValue (z3_expr : Term) (fuel : Nat) : Option (Option Term × Solver) :=
  s.getExtremum z .bvugt z3_expr fuel

/-- What the searches leave alone, and what they have put out since. -/
structure Puts (s : Solver) (cases : List TestCase) (s' : Solver) : Prop where
  inputs : s'.inputs_ = s.inputs_
  out_dir : s'.out_dir_ = s.out_dir_
  interested : s'.last_interested_ = s.last_interested_
  forest : s'.dep_forest_ = s.dep_forest_
  scopes : s'.solver_.scopes = s.solver_.scopes
  saved : s'.saved = s.saved ++ cases

/-- All assertions are about the bytes of the input. -/
def OverInput (s : Solver) : Prop :=
  ∀ t ∈ s.solver_.assertions, OverBytes s.inputs_.length t

variable {s s' s₁ : Solver} {z : Z3} {cases cases' : List TestCase} {suffix : String}
  {z3_expr t : Term} {n : Nat} {R : Nat → Nat → Prop}

theorem Puts.refl (s : Solver) : Puts s [] s :=
  ⟨rfl, rfl, rfl, rfl, rfl, (List.append_nil _).symm⟩

theorem Puts.trans (h : Puts s cases s₁) (h' : Puts s₁ cases' s') : Puts s (cases ++ cases') s' :=
  ⟨h'.inputs.trans h.inputs, h'.out_dir.trans h.out_dir, h'.interested.trans h.interested,
    h'.forest.trans h.forest, h'.scopes.trans h.scopes,
    by rw [h'.saved, h.saved, List.append_assoc]⟩

/-! ### One check -/

/-- Writing the numbers of a model over the bytes. -/
theorem foldlM_set (consts : List (Nat × Nat)) (values : List (BitVec 8))
    (hnodup : (consts.map Prod.fst).Nodup) (hlt : ∀ c ∈ consts, c.1 < values.length) :
    ∃ values', consts.foldlM (fun (values : List (BitVec 8)) c =>
        if c.1 < values.length then some (values.set c.1 (BitVec.ofNat 8 c.2)) else none) values =
        some values' ∧
      (∀ c ∈ consts, values'[c.1]? = some (BitVec.ofNat 8 c.2)) ∧
      ∀ i, i ∉ consts.map Prod.fst → values'[i]? = values[i]? := by
  induction consts generalizing values with
  | nil => exact ⟨values, rfl, nofun, fun _ _ => rfl⟩
  | cons c consts ih =>
      obtain ⟨hc, hlt⟩ := List.forall_mem_cons.1 hlt
      obtain ⟨hnotin, hnodup⟩ := List.nodup_cons.1 hnodup
      obtain ⟨values', hfold, hin, hout⟩ := ih (values.set c.1 (BitVec.ofNat 8 c.2)) hnodup
        (by simpa using hlt)
      refine ⟨values', by simpa [hc] using hfold, fun x hx => ?_, fun i hi => ?_⟩
      · rcases List.mem_cons.1 hx with rfl | hx
        · rw [hout _ hnotin, List.getElem?_set_self hc]
        · exact hin x hx
      · obtain ⟨hne, hi⟩ := not_or.1 (by simpa using hi : ¬ (i = c.1 ∨ i ∈ consts.map Prod.fst))
        rw [hout i hi, List.getElem?_set_ne (Ne.symm hne)]

/-- The test case of a model. -/
theorem getConcreteValues_of_model {m : Z3Model} (hm : s.solver_.model = some m)
    (hnodup : (m.consts.map Prod.fst).Nodup) (hlt : ∀ c ∈ m.consts, c.1 < s.inputs_.length) :
    ∃ values, s.getConcreteValues = some values ∧ m.Fits (inputOf values) := by
  obtain ⟨values, hfold, hin, -⟩ := foldlM_set m.consts s.inputs_ hnodup hlt
  refine ⟨values, by simpa [getConcreteValues, hm] using hfold, fun c hc => ?_⟩
  rw [inputOf, List.getD_eq_getElem?_getD, hin c hc, Option.getD_some]

theorem saveValues_puts {values : List (BitVec 8)} (h : s.getConcreteValues = some values)
    (suffix : String) : ∃ file s', s.saveValues suffix = some s' ∧ Puts s [⟨file, values⟩] s' ∧
      s'.solver_ = s.solver_ := by
  by_cases hdir : s.out_dir_ = ""
  · refine ⟨none, { s with saved := s.saved ++ [⟨none, values⟩] }, ?_,
      ⟨rfl, rfl, rfl, rfl, rfl, rfl⟩, rfl⟩
    simp [saveValues, h, hdir]
  · refine ⟨some (s.fname suffix), { s with
      saved := s.saved ++ [⟨some (s.fname suffix), values⟩]
      num_generated_ := s.num_generated_ + 1 }, ?_, ⟨rfl, rfl, rfl, rfl, rfl, rfl⟩, rfl⟩
    simp [saveValues, h, hdir]

/-- A check that finds a model, and saves it. -/
structure Found (z : Z3) (s : Solver) (m : Z3Model) (case : TestCase) (s' : Solver) : Prop where
  sat : z.check s.solver_.checks s.solver_.assertions = .sat m
  model : s'.solver_.model = some m
  fits : m.Fits (inputOf case.values)
  holds : Holds (inputOf case.values) s.solver_.assertions
  assertions : s'.solver_.assertions = s.solver_.assertions
  puts : Puts s [case] s'

theorem checkAndSave_cases (hz : z.Correct s.inputs_.length) (hs : s.OverInput)
    (suffix : String) :
    (∃ m case s', s.checkAndSave z suffix = some (true, s') ∧ Found z s m case s') ∨
      ∃ s', s.checkAndSave z suffix = some (false, s') ∧
        (∀ ρ, ¬ Holds ρ s.solver_.assertions) ∧
        s'.solver_.assertions = s.solver_.assertions ∧ Puts s [] s' := by
  cases hcheck : z.check s.solver_.checks s.solver_.assertions with
  | unknown => exact absurd hcheck (hz.decides hs)
  | unsat =>
      refine .inr ⟨(s.check z).2, ?_, hz.unsat hs hcheck, rfl, rfl, rfl, rfl, rfl, rfl,
        (List.append_nil _).symm⟩
      simp [checkAndSave, check, Z3Solver.check, hcheck]
  | sat m =>
      obtain ⟨hnodup, hlt, hholds⟩ := hz.sat hs hcheck
      have hmodel : (s.check z).2.solver_.model = some m := by
        simp [check, Z3Solver.check, hcheck]
      obtain ⟨values, hvalues, hfits⟩ := getConcreteValues_of_model hmodel hnodup hlt
      obtain ⟨file, s', hsave, hputs, hsolver⟩ := saveValues_puts hvalues suffix
      refine .inl ⟨m, ⟨file, values⟩, s', ?_, hcheck, hsolver ▸ hmodel, hfits, hholds _ hfits,
        hsolver ▸ rfl, hputs.inputs, hputs.out_dir, hputs.interested, hputs.forest, hputs.scopes,
        hputs.saved⟩
      simp only [check, Z3Solver.check, hcheck] at hsave
      simp [checkAndSave, check, Z3Solver.check, hcheck, hsave]

/-! ### The loop -/

/-- The number of a term under an input. -/
def numeral (e : Term) (ρ : Input) : Nat :=
  match e.eval (Expr.symbols ρ) with
  | some (.bv _ v) => v.toNat
  | _ => 0

/-- The term is a bit vector of width `n`. -/
def IsBVTerm (e : Term) (n : Nat) : Prop :=
  ∀ ρ, ∃ v : BitVec n, e.eval (Expr.symbols ρ) = some (.bv n v)

theorem numeral_eq {e : Term} {ρ : Input} {v : BitVec n}
    (h : e.eval (Expr.symbols ρ) = some (.bv n v)) : numeral e ρ = v.toNat := by
  rw [numeral, h]

theorem IsBVTerm.numeral_lt {e : Term} (h : IsBVTerm e n) (ρ : Input) : numeral e ρ < 2 ^ n := by
  obtain ⟨v, hv⟩ := h ρ
  rw [numeral_eq hv]
  exact v.isLt

/-- Blocking a value asserts one term about the input, which is true when the number of
`e` stands in the relation `R` to the value. -/
def Blocks (size : Nat) (e : Term) (n : Nat) (R : Nat → Nat → Prop)
    (block : Term → Solver → Solver) : Prop :=
  ∀ (v : BitVec n) (s : Solver), ∃ t, block (.bv n v) s = s.addExpr t ∧ OverBytes size t ∧
    ∀ ρ, t.eval (Expr.symbols ρ) = some (.bool true) ↔ R (numeral e ρ) v.toNat

/-- The rounds of the loop so far: their values are blocked, on top of the inputs in `S`. -/
structure Searched (S : Set Input) (e : Term) (R : Nat → Nat → Prop) (s : Solver)
    (found : List Nat) : Prop where
  rounds : Search.Rounds S (numeral e) R found
  overInput : s.OverInput
  holds_iff : ∀ ρ, Holds ρ s.solver_.assertions ↔ ρ ∈ S ∧ ∀ v ∈ found, R (numeral e ρ) v

/-- The term of the latest value. -/
def latest (n : Nat) (found : List Nat) : Option Term :=
  found.head?.map fun v => .bv n (BitVec.ofNat n v)

/-- The numbers that test cases give to a term. -/
def numerals (e : Term) (cases : List TestCase) : List Nat :=
  cases.map fun case => numeral e (inputOf case.values)

theorem Searched.of_puts {S : Set Input} {found : List Nat} (h : Searched S z3_expr R s found)
    (hassertions : s'.solver_.assertions = s.solver_.assertions)
    (hinputs : s'.inputs_ = s.inputs_) :
    Searched S z3_expr R s' found := by
  refine ⟨h.rounds, ?_, ?_⟩
  · rw [OverInput, hassertions, hinputs]
    exact h.overInput
  · rw [hassertions]
    exact h.holds_iff

/-- One more round: the value of the model that was found is blocked. -/
theorem Searched.block {S : Set Input} {found : List Nat} {block : Term → Solver → Solver}
    {ρ : Input} {v : BitVec n} (hb : Blocks s.inputs_.length z3_expr n R block)
    (h : Searched S z3_expr R s found) (hρ : Holds ρ s.solver_.assertions)
    (hv : numeral z3_expr ρ = v.toNat) :
    Searched S z3_expr R (block (.bv n v) s) (v.toNat :: found) ∧
      Puts s [] (block (.bv n v) s) := by
  obtain ⟨t, hblock, hover, hiff⟩ := hb v s
  obtain ⟨hS, hR⟩ := (h.holds_iff ρ).1 hρ
  rw [hblock]
  refine ⟨⟨hv ▸ .cons hS hR h.rounds, ?_, fun ρ => ?_⟩, rfl, rfl, rfl, rfl, rfl,
    (List.append_nil _).symm⟩
  · intro t' ht'
    rcases List.mem_append.1 ht' with ht' | ht'
    · exact h.overInput t' ht'
    · rw [List.mem_singleton.1 ht']
      exact hover
  · show Holds ρ (s.solver_.assertions ++ [t]) ↔ _
    rw [holds_append, holds_singleton, h.holds_iff, hiff, List.forall_mem_cons, and_assoc,
      and_comm (a := R _ _)]

/-- **The search.** With enough checks the loop ends with nothing left to find; every test
case that it saves is one of its rounds. -/
theorem searchLoop_spec (suffix : String) {S : Set Input}
    {block : Term → Solver → Solver} {size : Nat}
    (hz : z.Correct size) (he : z.Evaluates size z3_expr n) (hn : IsBVTerm z3_expr n)
    (hb : Blocks size z3_expr n R block) (hR : ∀ v, ¬ R v v) (fuel : Nat) (s : Solver)
    (found : List Nat) (hsize : s.inputs_.length = size) (h : Searched S z3_expr R s found)
    (hfuel : 2 ^ n < fuel + found.length) :
    ∃ cases s', s.searchLoop z suffix block z3_expr fuel (latest n found) =
        some (latest n ((numerals z3_expr cases).reverse ++ found), s') ∧ Puts s cases s' ∧
      Search.Rounds S (numeral z3_expr) R ((numerals z3_expr cases).reverse ++ found) ∧
      Search.Exhausted S (numeral z3_expr) R ((numerals z3_expr cases).reverse ++ found) ∧
      ∀ case ∈ cases, inputOf case.values ∈ S := by
  subst hsize
  induction fuel generalizing s found with
  | zero =>
      have hle := h.rounds.length_le hR (T := Finset.range (2 ^ n))
        fun ρ _ => Finset.mem_range.2 (hn.numeral_lt ρ)
      rw [Finset.card_range] at hle
      omega
  | succ fuel ih =>
      rcases checkAndSave_cases hz h.overInput suffix with ⟨m, case, s₁, hcheck, hfound⟩
        | ⟨s₁, hcheck, hnone, -, hputs⟩
      · obtain ⟨v, hmodel, hvalue⟩ := he _ _ m h.overInput hfound.sat
        have hv := numeral_eq (hvalue _ hfound.fits)
        have h₁ := h.of_puts hfound.assertions hfound.puts.inputs
        have hinputs := hfound.puts.inputs
        obtain ⟨h₂, hputs₂⟩ :=
          h₁.block (hinputs.symm ▸ hb) (hfound.assertions.symm ▸ hfound.holds) hv
        have hinputs₂ := hputs₂.inputs.trans hinputs
        obtain ⟨cases, s', hloop, hputs', hrounds, hex, hcases⟩ := ih _ (v.toNat :: found) h₂
          (by rw [List.length_cons]; omega) (hinputs₂.symm ▸ hz) (hinputs₂.symm ▸ he)
          (hinputs₂.symm ▸ hb)
        have hsplit : (numerals z3_expr (case :: cases)).reverse ++ found =
            (numerals z3_expr cases).reverse ++ v.toNat :: found := by
          simp [numerals, hv]
        refine ⟨case :: cases, s', ?_, (hfound.puts.trans hputs₂).trans hputs', hsplit ▸ hrounds,
          hsplit ▸ hex, ?_⟩
        · rw [hsplit, searchLoop, hcheck]
          simp only [Option.bind_eq_bind, Option.bind_some, if_true, getPossibleValue, hfound.model,
            hmodel, Option.pure_def]
          rw [← hloop]
          simp [latest]
        · refine List.forall_mem_cons.2 ⟨?_, hcases⟩
          exact ((h.holds_iff _).1 hfound.holds).1
      · refine ⟨[], s₁, ?_, hputs, h.rounds, ?_, nofun⟩
        · rw [searchLoop, hcheck]
          rfl
        · by_contra hleft
          obtain ⟨ρ, hρ, hrel⟩ := Search.exists_mem_of_not_exhausted hleft
          exact hnone ρ ((h.holds_iff ρ).2 ⟨hρ, hrel⟩)

/-! ### The extrema -/

/-- A search whose test cases satisfy the assertions, and that leaves the stack as it was. -/
structure Restores (s s' : Solver) : Prop where
  saved : ∃ cases, s'.saved = s.saved ++ cases ∧
    ∀ case ∈ cases, Holds (inputOf case.values) s.solver_.assertions
  assertions : s'.solver_.assertions = s.solver_.assertions
  scopes : s'.solver_.scopes = s.solver_.scopes

theorem blocks_bound {bound : BVPred} {size : Nat} (hover : OverBytes size z3_expr)
    (hn : IsBVTerm z3_expr n)
    (hbound : ∀ v w : BitVec n, bound.holds v w = true ↔ R v.toNat w.toNat) :
    Blocks size z3_expr n R fun value s => s.addExpr (.bvpred bound z3_expr value) := by
  intro v s
  refine ⟨_, rfl, by simpa [OverBytes, Term.symbols] using hover, fun ρ => ?_⟩
  obtain ⟨w, hw⟩ := hn ρ
  rw [numeral_eq hw, ← hbound]
  simp [Term.eval, hw]

/-- Searching with a bound under `push` and `pop`. -/
theorem getExtremum_spec (bound : BVPred) (R : Nat → Nat → Prop) (hz : z.Correct s.inputs_.length)
    (he : z.Evaluates s.inputs_.length z3_expr n) (hn : IsBVTerm z3_expr n)
    (hover : OverBytes s.inputs_.length z3_expr) (hs : s.OverInput)
    (hsat : ∃ ρ, Holds ρ s.solver_.assertions)
    (hbound : ∀ v w : BitVec n, bound.holds v w = true ↔ R v.toNat w.toNat)
    (hR : ∀ v, ¬ R v v) {fuel : Nat} (hfuel : 2 ^ n < fuel) :
    ∃ (v : BitVec n) (found : List Nat) (s' : Solver),
      s.getExtremum z bound z3_expr fuel = some (some (.bv n v), s') ∧ s.Restores s' ∧
      Search.Rounds {ρ | Holds ρ s.solver_.assertions} (numeral z3_expr) R (v.toNat :: found) ∧
      Search.Exhausted {ρ | Holds ρ s.solver_.assertions} (numeral z3_expr) R
        (v.toNat :: found) := by
  have hstart : Searched {ρ | Holds ρ s.solver_.assertions} z3_expr R s.push [] :=
    ⟨.nil, hs, fun ρ => by simp [push, Z3Solver.push]⟩
  obtain ⟨cases, s₁, hloop, hputs, hrounds, hex, hcases⟩ := searchLoop_spec "" hz he hn
    (blocks_bound hover hn hbound) hR fuel s.push [] rfl hstart (by simpa using hfuel)
  -- the assertions can be satisfied, so a value was found
  generalize hvalues : (numerals z3_expr cases).reverse ++ [] = values at hloop hrounds hex
  obtain ⟨ρ, hρ⟩ := hsat
  obtain ⟨_, hmem, -⟩ := hex ρ hρ
  cases values with
  | nil => cases hmem
  | cons v found =>
      obtain ⟨ρ, -, rfl⟩ := hrounds.mem_image List.mem_cons_self
      have hv : (BitVec.ofNat n (numeral z3_expr ρ)).toNat = numeral z3_expr ρ := by
        rw [BitVec.toNat_ofNat, Nat.mod_eq_of_lt (hn.numeral_lt ρ)]
      have hscopes : s₁.solver_.scopes = s.solver_.assertions :: s.solver_.scopes := hputs.scopes
      refine ⟨BitVec.ofNat n (numeral z3_expr ρ), found, { s₁ with solver_ :=
        { s₁.solver_ with assertions := s.solver_.assertions, scopes := s.solver_.scopes } },
        ?_, ⟨⟨cases, hputs.saved, hcases⟩, rfl, rfl⟩, hv.symm ▸ hrounds, hv.symm ▸ hex⟩
      simp only [getExtremum, latest, List.head?_nil, Option.map_none] at hloop ⊢
      simp [hloop, pop, Z3Solver.pop, hscopes]

/-- **The extremum search.** Over every stack that can be satisfied both searches end, with
the least and the greatest number that the expression has in any model of the stack. The test
cases on the way satisfy the stack, and it is left as it was found. -/
theorem getMinValue_getMaxValue (hz : z.Correct s.inputs_.length)
    (he : z.Evaluates s.inputs_.length z3_expr n) (hn : IsBVTerm z3_expr n)
    (hover : OverBytes s.inputs_.length z3_expr) (hs : s.OverInput)
    (hsat : ∃ ρ, Holds ρ s.solver_.assertions) {fuel : Nat} (hfuel : 2 ^ n < fuel) :
    (∃ (v : BitVec n) (s' : Solver), s.getMinValue z z3_expr fuel = some (some (.bv n v), s') ∧
        IsLeast (numeral z3_expr '' {ρ | Holds ρ s.solver_.assertions}) v.toNat ∧
        s.Restores s') ∧
      ∃ (v : BitVec n) (s' : Solver), s.getMaxValue z z3_expr fuel = some (some (.bv n v), s') ∧
        IsGreatest (numeral z3_expr '' {ρ | Holds ρ s.solver_.assertions}) v.toNat ∧
        s.Restores s' := by
  constructor
  · obtain ⟨v, found, s', hmin, hrestores, hrounds, hex⟩ := getExtremum_spec .bvult (· < ·) hz he hn
      hover hs hsat (fun v w => by simp [BVPred.holds, BitVec.ult]) Nat.lt_irrefl hfuel
    exact ⟨v, s', hmin, hrounds.isLeast hex, hrestores⟩
  · obtain ⟨v, found, s', hmax, hrestores, hrounds, hex⟩ := getExtremum_spec .bvugt (· > ·) hz he hn
      hover hs hsat (fun v w => by simp [BVPred.holds, BitVec.ult]) Nat.lt_irrefl hfuel
    exact ⟨v, s', hmax, hrounds.isGreatest hex, hrestores⟩

/-- Two input bytes of which the first is less than the second, and their sum. -/
theorem getMinValue_getMaxValue_sum :
    ∃ (v : BitVec 8) (s' : Solver), Solver.getMinValue
        { inputs_ := [1, 2], out_dir_ := "out", num_generated_ := 0, last_interested_ := true
          dep_forest_ := .empty, saved := []
          solver_ := { assertions := [.bvpred .bvult (.symbol 0 8) (.symbol 1 8)], scopes := []
                       checks := 0, model := none } }
        (Z3.bruteForce 2) (.bvop .bvadd (.symbol 0 8) (.symbol 1 8)) 257 =
        some (some (.bv 8 v), s') ∧
      IsLeast (numeral (.bvop .bvadd (.symbol 0 8) (.symbol 1 8)) ''
        {ρ | Holds ρ [.bvpred .bvult (.symbol 0 8) (.symbol 1 8)]}) v.toNat := by
  have hbv : IsBVTerm (.bvop .bvadd (.symbol 0 8) (.symbol 1 8)) 8 := fun ρ => ⟨_, by
    simp [Term.eval]
    rfl⟩
  have hover : OverBytes 2 (.bvop .bvadd (.symbol 0 8) (.symbol 1 8)) := by decide
  obtain ⟨⟨v, s', hmin, hleast, -⟩, -⟩ := getMinValue_getMaxValue
    (s := { inputs_ := [1, 2], out_dir_ := "out", num_generated_ := 0, last_interested_ := true
            dep_forest_ := .empty, saved := []
            solver_ := { assertions := [.bvpred .bvult (.symbol 0 8) (.symbol 1 8)], scopes := []
                         checks := 0, model := none } })
    (Z3.bruteForce_correct 2) (Z3.bruteForce_evaluates hover hbv) hbv hover
    (by simp [OverInput]; decide) ⟨fun i => BitVec.ofNat 8 i, by decide⟩ (by decide : 2 ^ 8 < 257)
  exact ⟨v, s', hmin, hleast⟩

end Solver

end Qsym
