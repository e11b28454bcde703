import Qsym.Instrument.Result

/-!
# Qsym.Instrument.Negation

The flags after `NEG` and `NOT`. One handler serves both, and on its symbolic path it
records a logic operation, on its concrete path it lets go of its flags. So a `NEG` of a
symbolic operand reports a carry and an overflow that are always clear, and a `NOT`
leaves the flags alone only where it happens to report or to forget what was there.
-/

namespace X86

open Qsym

/-- The flags of `NEG`. -/
def negFlag {n : Nat} (d : BitVec n) : Eflag → Option Bool
  | .cf => some (d != 0)
  | .of => some (d == BitVec.intMin n)
  | f => resultFlag (-d) f

end X86

namespace Qsym

open Procedure X86

/-- The handlers of `NEG` and `NOT`, by their operand. -/
inductive NegNotForm (Reg : Type)
  | reg (dst : Reg)
  | mem (m : MemArg Reg)

namespace NegNotForm

open Handler Process

variable {Reg : Type} [DecidableEq Reg] (T : Process Reg)

def handler (kind : UnaryKind) : NegNotForm Reg → Handler Reg Unit
  | reg dst => T.instrumentNegNotReg dst kind
  | mem m => T.instrumentNegNotMem m kind

def operand : NegNotForm Reg → Handler Reg (Option Expr)
  | reg dst => T.getExprFromReg dst
  | mem m => T.getExprFromMemSrc m

def dst : NegNotForm Reg → Operand Reg
  | reg dst => .reg dst
  | mem m => .mem m.addr m.size

/-- The operand can be read and written. -/
def Ready (s : Shadow) : NegNotForm Reg → Prop
  | reg dst => T.Tracked dst
  | mem m => T.Addressed m ∧ Mapped s.memory m.addr m.size

/-- The shadow map when the operand is read. -/
noncomputable def start (v : ShadowMap Reg) : NegNotForm Reg → ShadowMap Reg
  | reg _ => v
  | mem m => T.afterAddress v m

/-- The handler comes to an expression of the operand. -/
def Answers (v : ShadowMap Reg) (form : NegNotForm Reg) : Prop :=
  ¬ T.ReadsNull (form.start T v) form.dst

variable {T} (form : NegNotForm Reg) {s : Shadow}

theorem handler_eq (kind : UnaryKind) :
    form.handler T kind = T.instrumentNegNot (form.operand T) kind (form.dst.set T) := by
  cases form <;> rfl

variable {form} in
theorem Ready.writable (h : form.Ready T s) : T.Writable s form.dst := by
  cases form with
  | reg => exact h
  | mem => exact h.2

end NegNotForm

namespace Process

open Handler Stateful FlagHistory

variable {Reg : Type} [DecidableEq Reg] {T : Process Reg} {σ : Session} {ρ : Input}
variable {n : Nat} {d : BitVec n} {e : Eflags} {h : FlagHistory} {s : Shadow} {symbolic : Bool}

/-- After `NEG` of `d`, jumps are told the flags of the machine. -/
def NegFlags (σ : Session) (ρ : Input) (d : BitVec n) (e : Eflags) : Prop :=
  ∀ f v, negFlag d f = some v → e.Tells σ ρ f v

/-- After `NOT`, the flags are left as they were. -/
def NotFlags (σ : Session) (ρ : Input) (h : FlagHistory) (e : Eflags) : Prop :=
  ∀ f, f ≠ .af → Leaves σ ρ h e f

/-- The flags before `NOT` are none, if its operand is concrete, and otherwise those of a
logic operation on the complement. -/
def NotKeeps (σ : Session) (ρ : Input) (h : FlagHistory) (d : BitVec n) (symbolic : Bool) : Prop :=
  ∀ f, f ≠ .af →
    if symbolic then (eflags h).validSet.has f = true ∧
      ∀ v, FlagHistory.Gives σ ρ h f v → (Operation.logic n (~~~d)).flag f = some v
    else (eflags h).validSet.has f = false

theorem logic_defines {f : Eflag} (hf : f ≠ .af) : OpKind.defines .logic f = true := by
  cases f <;> first | rfl | exact absurd rfl hf

theorem logic_touches {f : Eflag} (hf : f ≠ .af) : OpKind.touches .logic f = true := by
  rw [OpKind.touches_eq, logic_defines hf, Bool.true_or]

/-! ### Each of the flags -/

/-- Flags that are let go of are those of the machine. -/
theorem negFlags_invalidate (e : Eflags) : NegFlags σ ρ d (e.invalidate .logic) := by
  intro f v hf hv
  have hnot : (e.invalidate .logic).validSet.has f = false := by
    rw [Eflags.has_invalidate, logic_touches (by rintro rfl; cases hf),
      Bool.not_true, Bool.and_false]
  exact nomatch hv.symm.trans hnot

/-- `NEG` of a symbolic operand is right for zero only, where nothing is carried. -/
theorem negFlags_set_iff (hn : 8 ≤ n) {fs : FlagSet} (hperf : Performs ρ fs (.logic n (-d))) :
    NegFlags σ ρ d (e.set fs.kind fs.result fs.dst fs.src) ↔ d = 0 := by
  have hreports (f : Eflag) (v : Bool) (hf : (Operation.logic n (-d)).flag f = some v) :
      (e.set fs.kind fs.result fs.dst fs.src).Reports σ ρ f v :=
    hperf.reports hf e
  constructor
  · intro hflags
    have hcf := (hreports .cf false rfl).tells_iff.1 (hflags .cf (d != 0) rfl)
    simpa using hcf.symm
  · rintro rfl f v hf
    refine (hreports f v ?_).tells_iff.2 rfl
    have hmin : (0 : BitVec n) ≠ BitVec.intMin n := by
      intro heq
      have hmsb := congrArg BitVec.msb heq
      rw [BitVec.msb_intMin, decide_eq_true (by omega : 0 < n)] at hmsb
      simp at hmsb
    cases f with
    | cf =>
        cases hf
        simp [Operation.flag]
    | of =>
        cases hf
        simpa [Operation.flag] using hmin
    | _ => exact hf

theorem notFlags_invalidate_iff (hsym : symbolic = false) :
    NotFlags σ ρ h ((eflags h).invalidate .logic) ↔ NotKeeps σ ρ h d symbolic := by
  rw [hsym, NotFlags, NotKeeps]
  exact forall₂_congr fun f hf => leaves_invalidate_iff (logic_touches hf)

theorem notFlags_set_iff (hsym : symbolic = true) {fs : FlagSet} (hfs : fs.kind = .logic)
    (hperf : Performs ρ fs (.logic n (~~~d))) :
    NotFlags σ ρ h ((eflags h).set fs.kind fs.result fs.dst fs.src) ↔
      NotKeeps σ ρ h d symbolic := by
  rw [hsym, NotFlags, NotKeeps]
  refine forall₂_congr fun f hf => ?_
  have hd : fs.kind.defines f = true := hfs ▸ logic_defines hf
  obtain ⟨v, hv⟩ := Option.isSome_iff_exists.1 ((hperf.defines_eq f).symm.trans hd)
  rw [leaves_set_iff hd (hperf.computes (chain_soundSimply σ _) hv)]
  simp only [if_true, hv, Option.some.injEq, eq_comm]

/-! ### The handler -/

section Handlers

variable (hP : T.pin.Documented) (hb : T.builder = SymbolicExprBuilder.chain) (hs : s.WellFormed)
  (hv : T.Consistent σ.input (T.peek s)) (form : NegNotForm Reg)
  (hn : form.dst.size T ∈ [1, 2, 4, 8]) (hready : form.Ready T s)
include hP hb hs

include hready in
theorem negNot_reads : Returns (body σ) exactly (form.operand T) s := by
  cases form with
  | reg dst => exact getExprFromReg_returns hP hb hs hready
  | mem m => exact getExprFromMemSrc_returns hP hb hs hready.1

theorem negNot_answers : Ensures (body σ) exactly (form.operand T) s fun x _ _ =>
    x = none ↔ ¬ form.Answers T (T.peek s) := by
  have hget {s₁ : Shadow} (h₁ : s₁.WellFormed) (o : Operand Reg) :
      Ensures (body σ) exactly (o.get T) s₁ fun x _ _ => x = none ↔ T.ReadsNull (T.peek s₁) o :=
    (get_carries hb h₁ hP o).mono fun _ _ _ h => h.1.none_iff
  cases form with
  | reg dst => exact (hget hs (.reg dst)).mono fun _ _ _ h => h.trans not_not.symm
  | mem m =>
      refine Ensures.bind (makeAddrConcrete_after hP hb hs m) fun _ s₁ _ ⟨h₁, hpeek⟩ => ?_
      refine (hget h₁ (.mem m.addr m.size)).mono fun _ _ _ h => h.trans ?_
      rw [hpeek]
      exact not_not.symm

include hv in
theorem negNot_fetches : Fetches σ T (form.operand T) s [form.dst] fun e =>
    Expresses (form.dst.size T * 8) (form.dst.bv T (T.peek s)) e ∧ form.Answers T (T.peek s) := by
  have hanswers : Ensures (body σ) exactly (form.operand T) s fun x _ _ =>
      x ≠ none → form.Answers T (T.peek s) :=
    (negNot_answers hP hb hs form).mono fun _ _ _ h hne => not_not.1 (mt h.2 hne)
  cases form with
  | reg dst => exact (fetches_get hs hv (get_gets hP hb (.reg dst))).and hanswers
  | mem m => exact (fetches_get hs hv (getExprFromMemSrc_gets hP hb m)).and hanswers

include hv hn hready in
/-- The flags after the handler: let go of, or those of a logic operation. -/
theorem negNot_flags (kind : UnaryKind) (hk : kind ≠ .lnot)
    (hsym : symbolic = true ↔ form.Answers T (T.peek s)) {Q : Eflags → Prop}
    (hconcrete : symbolic = false → Q (s.eflags.invalidate .logic))
    (hsymbolic : symbolic = true → ∀ fs, fs.kind = .logic →
      (∀ ρ, Performs ρ fs (.logic _ (kind.apply (form.dst.bv T (T.peek s) ρ)))) →
        Q (s.eflags.set fs.kind fs.result fs.dst fs.src)) :
    Achieves (body σ) exactly (form.handler T kind) s fun _ s' _ => Q s'.eflags := by
  have hsize : 8 ≤ form.dst.size T * 8 ∧ form.dst.size T ≤ 2 ^ 64 := by
    simp only [List.mem_cons, List.not_mem_nil, or_false] at hn
    omega
  rw [form.handler_eq]
  refine computing_achieves_of (C := ¬ form.Answers T (T.peek s)) (Q := fun s' => Q s'.eflags)
    (negNot_fetches hP hb hs hv form) (negNot_reads hP hb hs form hready)
    ((negNot_answers hP hb hs form).mono fun _ _ _ h => h.1) (fun s₁ hnot h₁ _ => ?_)
    fun s₁ x h₁ ⟨hx, hans⟩ => ?_
  · refine (onEflags_achieves _).mono fun _ s' _ hs' => ?_
    rw [hs', h₁.eflags]
    exact hconcrete (Bool.eq_false_iff.2 (mt hsym.1 hnot))
  · have hres : Builds σ exactly (T.builder.create (.unary kind x)) _ :=
      hb ▸ hx.unary_builds hk
    refine Achieves.lift_bind hres fun res hres => onEflags_bind ?_
    have hwritable : T.Writable { s₁ with eflags := s₁.eflags.set .logic (some res) (some x) none }
        form.dst := hready.writable.of_samePages h₁.pages
    refine (set_achieves hP hb hwritable hsize.2 hres).mono fun _ s' _ ⟨heq, _⟩ => ?_
    rw [heq, h₁.eflags]
    exact hsymbolic (hsym.2 hans) ⟨.logic, some res, some x, none⟩ rfl fun ρ =>
      .logic hsize.1 (hres.at ρ)

include hv hn hready in
/-- **`NEG` and `NOT`.** For every operand, its value, and the flags before: jumps are told
the flags of `NEG` if and only if its operand is concrete or zero, and `NOT` leaves every
flag if and only if none was known, for a concrete operand, or, for a symbolic one, all were
known with the values that a logic operation gives to the complement. -/
theorem instrumentNegNot_flags_iff (hsym : symbolic = true ↔ form.Answers T (T.peek s))
    (hflags : s.eflags = eflags h) :
    Achieves (body σ) exactly (form.handler T .neg) s (fun _ s' _ => ∀ ρ,
      NegFlags σ ρ (form.dst.bv T (T.peek s) ρ) s'.eflags ↔
        (symbolic = true → form.dst.bv T (T.peek s) ρ = 0)) ∧
    Achieves (body σ) exactly (form.handler T .not) s fun _ s' _ => ∀ ρ,
      NotFlags σ ρ h s'.eflags ↔ NotKeeps σ ρ h (form.dst.bv T (T.peek s) ρ) symbolic := by
  have h8 : 8 ≤ form.dst.size T * 8 := by
    simp only [List.mem_cons, List.not_mem_nil, or_false] at hn
    omega
  constructor
  · refine negNot_flags (Q := fun e => ∀ ρ, NegFlags σ ρ (form.dst.bv T (T.peek s) ρ) e ↔
      (symbolic = true → form.dst.bv T (T.peek s) ρ = 0)) hP hb hs hv form hn hready .neg nofun hsym
      (fun hfalse ρ => ?_) fun htrue fs _ hperf ρ => ?_
    · exact iff_of_true (negFlags_invalidate _) fun htrue => nomatch hfalse.symm.trans htrue
    · rw [imp_iff_right htrue]
      exact negFlags_set_iff h8 (hperf ρ)
  · refine negNot_flags (Q := fun e => ∀ ρ, NotFlags σ ρ h e ↔
      NotKeeps σ ρ h (form.dst.bv T (T.peek s) ρ) symbolic) hP hb hs hv form hn hready .not nofun
      hsym (fun hfalse ρ => ?_) fun htrue fs hfs hperf ρ => ?_
    · rw [hflags]
      exact notFlags_invalidate_iff hfalse
    · rw [hflags]
      exact notFlags_set_iff htrue hfs (hperf ρ)

end Handlers

open X86Reg (process shadow)

/-- `NEG` or `NOT` of `AL`. -/
def alForm : NegNotForm X86Reg :=
  .reg .al

theorem alForm_answers : alForm.Answers process (process.peek (shadow [0])) := by
  intro hnull
  have hread : process.peek (shadow [0]) (.reg .rax 0) = none :=
    hnull (.reg .rax 0) (by decide)
  cases hread

/-- `NEG AL` on the input zero. -/
theorem instrumentNegNot_flags_zero : ∃ s' l w',
    Runs (body quietSession) (process.instrumentNegNotReg .al .neg (shadow [0])) (freshWorld 1)
      ((), s', l) w' ∧ NegFlags quietSession (fun _ => 0) (0 : BitVec 8) s'.eflags := by
  have h := (instrumentNegNot_flags_iff (σ := quietSession) (h := []) X86Reg.registers_documented
    (T := process) rfl (X86Reg.shadow_init_wellFormed [0]) (X86Reg.shadow_consistent [0]) alForm
    (by decide) (X86Reg.tracked (by decide)) (iff_of_true rfl alForm_answers) rfl).1
  obtain ⟨_, s', l, w', hr, hflags⟩ :=
    exists_run (n := 40) (w := freshWorld 1) h (by decide +kernel)
  exact ⟨s', l, w', hr, (hflags fun _ => 0).2 fun _ => BitVec.eq_of_toNat_eq (by decide +kernel)⟩

/-- `NEG AL` on the input one: the carry is reported to be clear. -/
theorem instrumentNegNot_not_flags : ∃ s' l w',
    Runs (body quietSession) (process.instrumentNegNotReg .al .neg (shadow [0])) (freshWorld 1)
      ((), s', l) w' ∧ ¬ NegFlags quietSession (fun _ => 1) (1 : BitVec 8) s'.eflags := by
  have h := negNot_flags (σ := quietSession) (Q := fun e => ¬ NegFlags quietSession (fun _ => 1)
    (alForm.dst.bv process (process.peek (shadow [0])) fun _ => 1) e) X86Reg.registers_documented
    (T := process) rfl (X86Reg.shadow_init_wellFormed [0]) (X86Reg.shadow_consistent [0]) alForm
    (by decide) (X86Reg.tracked (by decide)) .neg nofun (iff_of_true rfl alForm_answers)
    nofun fun _ fs _ hperf hflags => ?_
  · obtain ⟨_, s', l, w', hr, hnot⟩ :=
      exists_run (n := 40) (w := freshWorld 1) h (by decide +kernel)
    exact ⟨s', l, w', hr, hnot⟩
  · have hzero := congrArg BitVec.toNat ((negFlags_set_iff (by decide) (hperf _)).1 hflags)
    exact absurd hzero (by decide +kernel)

end Process

end Qsym
