import Qsym.Instrument.Negation
import Qsym.Instrument.Result

/-!
# Qsym.Instrument.Logical

The logical instructions on vectors. They have no flags, but go to the handlers of `AND`,
`OR` and `XOR`, which record a logic operation for operands that depend on the input and
let go of the flags for others. `PTEST` goes there too, and gets the carry of `AND`.
-/

namespace Qsym

open Procedure X86

/-- The opcodes of vector logic. -/
inductive VectorLogic
  | andpd | andps | orpd | orps | pand | por | pxor | xorpd | xorps | ptest
  deriving DecidableEq, Repr

namespace VectorLogic

/-- The kind that `analyzeInstruction` passes to `analyzeBinary`. -/
def kind : VectorLogic → BinaryKind
  | andpd | andps | pand | ptest => .and
  | orpd | orps | por => .or
  | pxor | xorpd | xorps => .xor

/-- The result is written. -/
def write : VectorLogic → Bool
  | ptest => false
  | _ => true

end VectorLogic

/-- The operands of vector logic. -/
inductive VectorLogicForm (Reg : Type)
  | regReg (dst src : Reg)
  | regMem (dst : Reg) (m : MemArg Reg)

namespace VectorLogicForm

variable {Reg : Type} [DecidableEq Reg] (T : Process Reg)

def handler (op : VectorLogic) : VectorLogicForm Reg → Handler Reg Unit
  | regReg dst src => T.instrumentBinaryRegReg dst src op.kind op.write
  | regMem dst m => T.instrumentBinaryRegMem dst m op.kind op.write

def operands : VectorLogicForm Reg → Handler Reg (Option (Expr × Expr))
  | regReg dst src => T.getExprFromRegReg dst src
  | regMem dst m => T.getExprFromRegMem dst m

def dst : VectorLogicForm Reg → Operand Reg
  | regReg dst _ | regMem dst _ => .reg dst

def src : VectorLogicForm Reg → Operand Reg
  | regReg _ src => .reg src
  | regMem _ m => .mem m.addr m.size

/-- The operands can be read. -/
def Ready : VectorLogicForm Reg → Prop
  | regReg dst src => T.Tracked dst ∧ T.Tracked src
  | regMem dst m => T.Tracked dst ∧ T.Addressed m

/-- The value of the destination. -/
def dstBv (v : ShadowMap Reg) (form : VectorLogicForm Reg) (ρ : Input) :
    BitVec (form.dst.size T * 8) :=
  form.dst.bv T v ρ

/-- The value of the source, which has the size of the destination. -/
def srcBv (v : ShadowMap Reg) (form : VectorLogicForm Reg) (ρ : Input) :
    BitVec (form.dst.size T * 8) :=
  (form.src.bv T v ρ).setWidth _

/-- The result. -/
def result (v : ShadowMap Reg) (op : VectorLogic) (form : VectorLogicForm Reg) (ρ : Input) :
    BitVec (form.dst.size T * 8) :=
  op.kind.apply (form.dstBv T v ρ) (form.srcBv T v ρ)

/-- Some byte of the operands depends on the input. -/
def Depends (v : ShadowMap Reg) (form : VectorLogicForm Reg) : Prop :=
  ∃ o ∈ [form.dst, form.src], ∃ k ∈ o.places T, Symbolic v k

variable {T} (form : VectorLogicForm Reg)

theorem handler_eq (op : VectorLogic) : form.handler T op =
    T.instrumentBinary (form.operands T) op.kind op.write (fun x => form.dst.set T x) := by
  cases form <;> rfl

end VectorLogicForm

namespace Process

open Handler Stateful FlagHistory
open SymbolicExprBuilder (chain)

variable {Reg : Type} [DecidableEq Reg] {T : Process Reg} {σ : Session} {α : Type}
variable {s : Shadow} {v : ShadowMap Reg} {a b o : Operand Reg} {os : List (Operand Reg)}

/-! ### Operands that depend on the input -/

/-- `p` gives an expression of the operand `o` only if it depends on the input. -/
def Attends (σ : Session) (T : Process Reg) (p : Handler Reg (Option Expr)) (o : Operand Reg) :
    Prop :=
  ∀ s : Shadow, s.WellFormed → Ensures (body σ) exactly p s fun x _ _ =>
    x ≠ none → ∃ k ∈ o.places T, Symbolic (T.peek s) k

omit [DecidableEq Reg] in
/-- What is not one byte counts only if it depends on the input. -/
theorem readsNull_of_not_symbolic (ho : o.size T ≠ 1) (h : ∀ k ∈ o.places T, ¬ Symbolic v k) :
    T.ReadsNull v o := by
  cases o with
  | mem addr n => exact h
  | reg r =>
      have h1 : T.pin.regSize r ≠ 1 := ho
      rw [ReadsNull, if_neg h1]
      exact h

section Attends

variable (hP : T.pin.Documented) (hb : T.builder = SymbolicExprBuilder.chain)
include hP hb

theorem get_attends (ho : o.size T ≠ 1) : Attends σ T (o.get T) o := by
  intro s hs
  refine (get_carries hb hs hP o).mono fun x s' _ ⟨hread, _⟩ hne => ?_
  by_contra hnot
  refine hne (hread.none_iff.2 (readsNull_of_not_symbolic ho fun k hk hsym => ?_))
  exact hnot ⟨k, hk, hsym⟩

theorem getExprFromMemSrc_attends {m : MemArg Reg} (hm : m.size ≠ 1) :
    Attends σ T (T.getExprFromMemSrc m) (.mem m.addr m.size) := by
  intro s hs
  refine Ensures.bind (makeAddrConcrete_aged hP hb hs m) fun _ s₁ _ h₁ => ?_
  have hget : Attends σ T (T.getExprFromMem m.addr m.size) (.mem m.addr m.size) :=
    get_attends hP hb (o := .mem m.addr m.size) hm
  refine (hget s₁ h₁.wellFormed).mono fun x _ _ hx hne => ?_
  obtain ⟨k, hk, hsym⟩ := hx hne
  exact ⟨k, hk, h₁.fades.symbolic_iff.1 hsym⟩

omit hP hb in
theorem fixPair_attends {p q : Handler Reg (Option Expr)} {f g : Option Expr → Build Expr}
    (hp : Gets σ T p a) (hpa : Attends σ T p a) (hqb : Attends σ T q b) (hs : s.WellFormed)
    (hv : T.Consistent σ.input (T.peek s)) :
    Ensures (body σ) exactly (do
      let x ← p
      let y ← q
      (fixPair x y f g : Build _)) s fun z _ _ =>
        z ≠ none → ∃ o ∈ [a, b], ∃ k ∈ o.places T, Symbolic (T.peek s) k := by
  refine Ensures.bind ((hp s hs hv).and (hpa s hs)) fun x s₁ _ ⟨⟨h₁, _, _⟩, hx⟩ => ?_
  refine Ensures.bind (hqb s₁ h₁.wellFormed) fun y s₂ _ hy => ?_
  have hfix : Yields (body σ) exactly (fixPair x y f g) fun z => z ≠ none →
      x ≠ none ∨ y ≠ none := by
    cases x with
    | none =>
        cases y with
        | none => exact .ret fun h => absurd rfl h
        | some => exact fun _ _ _ _ _ _ => .inr nofun
    | some => exact fun _ _ _ _ _ _ => .inl nofun
  refine Ensures.lift hfix fun z hz hne => ?_
  rcases hz hne with hx' | hy'
  · exact ⟨a, List.mem_cons_self, hx hx'⟩
  · obtain ⟨k, hk, hsym⟩ := hy hy'
    exact ⟨b, by simp, k, hk, h₁.fades.symbolic_iff.1 hsym⟩

end Attends

/-! ### The handlers -/

variable {ρ : Input} {h : FlagHistory} {n : Nat} {r : BitVec n} {D : Prop}

/-- Letting go of the flags, or, if `D` holds, taking those of a logic operation with the
result `r`, leaves the flags after `h` as they are. -/
def LogicKeeps (σ : Session) (ρ : Input) (h : FlagHistory) (r : BitVec n) (D : Prop) : Prop :=
  ∀ f, f ≠ .af →
    (D → (eflags h).validSet.has f = true ∧
      ∀ v, FlagHistory.Gives σ ρ h f v → (Operation.logic n r).flag f = some v) ∧
    (¬ D → (eflags h).validSet.has f = false)

/-- The flags of `PTEST`. -/
structure PtestFlags (σ : Session) (ρ : Input) (d s : BitVec n) (e : Eflags) : Prop where
  zf : e.Tells σ ρ .zf (s &&& d == 0)
  cf : e.Tells σ ρ .cf (s &&& ~~~d == 0)

theorem invalidate_keeps_iff (hD : ¬ D) :
    NotFlags σ ρ h ((eflags h).invalidate .logic) ↔ LogicKeeps σ ρ h r D := by
  refine forall₂_congr fun f hf => ?_
  rw [leaves_invalidate_iff (logic_touches hf)]
  exact ⟨fun h => ⟨fun hd => absurd hd hD, fun _ => h⟩, fun h => h.2 hD⟩

theorem set_keeps_iff {fs : FlagSet} (hD : D) (hfs : fs.kind = .logic)
    (hperf : Performs ρ fs (.logic n r)) :
    NotFlags σ ρ h ((eflags h).set fs.kind fs.result fs.dst fs.src) ↔ LogicKeeps σ ρ h r D := by
  refine forall₂_congr fun f hf => ?_
  have hd : fs.kind.defines f = true := hfs ▸ logic_defines hf
  obtain ⟨v, hv⟩ := Option.isSome_iff_exists.1 ((hperf.defines_eq f).symm.trans hd)
  rw [leaves_set_iff hd (hperf.computes (chain_soundSimply σ _) hv), hv]
  simp only [Option.some.injEq, eq_comm (a := v)]
  exact ⟨fun h => ⟨fun _ => h, fun hnot => absurd hD hnot⟩, fun h => h.1 hD⟩

section Handlers

variable (hP : T.pin.Documented) (hb : T.builder = SymbolicExprBuilder.chain) (hs : s.WellFormed)
  (hv : T.Consistent σ.input (T.peek s)) (form : VectorLogicForm Reg)

variable {form} in
include hP hb hs in
theorem vectorLogic_returns (hready : form.Ready T) (hsize : 0 < form.src.size T) :
    Returns (body σ) exactly (form.operands T) s := by
  cases form with
  | regReg dst src => exact getExprFromRegReg_returns hP hb hs hready.1 hready.2
  | regMem dst m => exact getExprFromRegMem_returns hP hb hs hready.1 hready.2 hsize

section Sized

variable (hn : 1 < form.dst.size T ∧ form.dst.size T ≤ 2 ^ 64)
  (hsrc : form.src.size T = form.dst.size T) (hready : form.Ready T)

include hP hb hs hv hn hsrc

theorem vectorLogic_fetches : Fetches σ T (form.operands T) s [form.dst, form.src] fun x =>
    (Expresses (form.dst.size T * 8) (form.dstBv T (T.peek s)) x.1 ∧
      Expresses (form.dst.size T * 8) (form.srcBv T (T.peek s)) x.2) ∧
        form.Depends T (T.peek s) := by
  have hwidth (x : Expr × Expr) (hx : PairOf T (T.peek s) form.dst form.src x) :
      Expresses (form.dst.size T * 8) (form.dstBv T (T.peek s)) x.1 ∧
        Expresses (form.dst.size T * 8) (form.srcBv T (T.peek s)) x.2 :=
    ⟨hx.1, hx.2.setWidth (by rw [hsrc])⟩
  cases form with
  | regReg dst src =>
      refine ((getExprFromRegReg_fetches hP hb hs hv dst src).mono hwidth).and ?_
      exact fixPair_attends (get_gets hP hb (.reg dst)) (get_attends hP hb (o := .reg dst) hn.1.ne')
        (get_attends hP hb (o := .reg src) (hsrc ▸ hn.1.ne')) hs hv
  | regMem dst m =>
      have hm : 1 < m.size := lt_of_lt_of_eq hn.1 hsrc.symm
      refine ((getExprFromRegMem_fetches hP hb hs hv dst (by omega)).mono hwidth).and ?_
      exact fixPair_attends (get_gets hP hb (.reg dst)) (get_attends hP hb (o := .reg dst) hn.1.ne')
        (getExprFromMemSrc_attends hP hb hm.ne') hs hv

include hready

/-- The flags are let go of if nothing depends on the input, and otherwise those of the
logic operation. -/
theorem vectorLogic_achieves (op : VectorLogic) {Q : Shadow → Prop}
    (hidle : ∀ s', T.Idle (T.peek s) (T.peek s') [form.dst, form.src] →
      s'.eflags = s.eflags.invalidate .logic → Q s')
    (hcomputed : ∀ s' v₁ fs, form.Depends T (T.peek s) → Fades (T.peek s) v₁ →
      (if op.write then T.Puts v₁ (T.peek s') form.dst fun ρ => form.result T (T.peek s) op ρ
        else T.peek s' = v₁) →
      fs.kind = .logic → s'.eflags = s.eflags.set fs.kind fs.result fs.dst fs.src →
      (∀ ρ, Performs ρ fs (.logic _ (form.result T (T.peek s) op ρ))) → Q s') :
    Achieves (body σ) exactly (form.handler T op) s fun _ s' _ => Q s' := by
  have h8 : 8 ≤ form.dst.size T * 8 := by omega
  have hdstReg : ∃ r, form.dst = .reg r ∧ T.Tracked r := by
    cases form with
    | regReg dst src => exact ⟨dst, rfl, hready.1⟩
    | regMem dst m => exact ⟨dst, rfl, hready.1⟩
  have hwritable (s₁ : Shadow) : T.Writable s₁ form.dst := by
    obtain ⟨r, hr, htracked⟩ := hdstReg
    rw [hr]
    exact htracked
  rw [form.handler_eq, instrumentBinary]
  refine Achieves.bind (P := fun k s' _ => k = .logic ∧ s' = s) ?_ fun _ _ _ ⟨hkind, hs'⟩ => ?_
  · cases op <;> exact .ret ⟨rfl, rfl⟩
  rw [hkind, hs']
  refine computing_achieves (vectorLogic_fetches hP hb hs hv form hn hsrc)
    (vectorLogic_returns hP hb hs hready (by omega)) (fun s₁ h₁ hempty => ?_)
    fun s₁ x h₁ ⟨⟨hdst, hsrc⟩, hdep⟩ => ?_
  · exact Total.ret (hidle _ hempty (congrArg (Eflags.invalidate · _) h₁.eflags))
  · have hnot : op.kind ≠ .sdiv ∧ op.kind.isLogical = false := by cases op <;> exact ⟨nofun, rfl⟩
    have hres := hb ▸ hdst.binary_builds (σ := σ) hnot.1 hnot.2 hsrc
    let fs (res : Expr) : FlagSet := ⟨.logic, some res, some x.1, some x.2⟩
    let e (res : Expr) : Eflags := s.eflags.set .logic (some res) (some x.1) (some x.2)
    refine Achieves.bind (P := fun res s₂ _ => s₂ = { s₁ with eflags := e res } ∧
      Expresses (form.dst.size T * 8) (form.result T (T.peek s) op) res) ?_
      fun res s₂ _ ⟨h₂, hres⟩ => ?_
    · refine Achieves.lift_bind hres fun res hres => onEflags_bind (.ret ⟨?_, hres⟩)
      rw [h₁.eflags]
    · subst h₂
      have hperf (ρ : Input) : Performs ρ (fs res) (.logic _ (form.result T (T.peek s) op ρ)) :=
        .logic h8 (hres.at ρ)
      cases hw : op.write with
      | true =>
          refine (set_achieves hP hb (hwritable _) hn.2 hres).mono fun _ s' _ ⟨heq, hputs⟩ => ?_
          exact hcomputed s' _ (fs res) hdep h₁.fades (by rwa [hw, if_pos rfl]) rfl heq hperf
      | false =>
          refine .ret (hcomputed _ _ (fs res) hdep h₁.fades ?_ rfl rfl hperf)
          rw [hw, if_neg Bool.false_ne_true]
          rfl

end Sized

variable (hn : form.dst.size T ∈ [8, 16]) (hsrc : form.src.size T = form.dst.size T)
  (hready : form.Ready T)

include hP hb hs hv hn hsrc hready in
/-- **Vector logic.** For every opcode but `PTEST` the destination is written with the result,
and the flags are left as they were if and only if `LogicKeeps` holds: none was known, if
nothing depends on the input, and else all were known with the values that a logic operation
gives to the result. `PTEST` changes no register; jumps are told its flags if and only if it
clears the carry or nothing depends on the input. -/
theorem instrumentVectorLogic_iff (op : VectorLogic) {h : FlagHistory}
    (hflags : s.eflags = eflags h) :
    Achieves (body σ) exactly (form.handler T op) s fun _ s' _ =>
      if op = .ptest then
        Fades (T.peek s) (T.peek s') ∧
          ∀ ρ, PtestFlags σ ρ (form.dstBv T (T.peek s) ρ) (form.srcBv T (T.peek s) ρ) s'.eflags ↔
            (form.Depends T (T.peek s) →
              form.srcBv T (T.peek s) ρ &&& ~~~form.dstBv T (T.peek s) ρ ≠ 0)
      else
        T.Computed (T.peek s) (T.peek s') [form.dst, form.src] form.dst
          (form.result T (T.peek s) op) ∧
          ∀ ρ, NotFlags σ ρ h s'.eflags ↔
            LogicKeeps σ ρ h (form.result T (T.peek s) op ρ) (form.Depends T (T.peek s)) := by
  have hsize : 1 < form.dst.size T ∧ form.dst.size T ≤ 2 ^ 64 := by
    simp only [List.mem_cons, List.not_mem_nil, or_false] at hn
    omega
  refine vectorLogic_achieves hP hb hs hv form hsize hsrc hready op (fun s' hidle heq => ?_)
    fun s' v₁ fs hdep hfades hputs hfs heq hperf => ?_
  · have hnot : ¬ form.Depends T (T.peek s) := by
      rintro ⟨o, ho, k, hk, hsym⟩
      exact hidle.not_symbolic ho hk hsym
    split
    next =>
        refine ⟨hidle.fades, fun ρ => iff_of_true ?_ fun h => absurd h hnot⟩
        have hforgotten (f : Eflag) (hf : f ≠ .af) (v : Bool) : s'.eflags.Tells σ ρ f v := by
          intro hknown
          rw [heq, Eflags.has_invalidate, logic_touches hf, Bool.not_true, Bool.and_false] at hknown
          cases hknown
        exact ⟨hforgotten .zf (by decide) _, hforgotten .cf (by decide) _⟩
    next =>
        refine ⟨.inl hidle, fun ρ => ?_⟩
        rw [heq, hflags]
        exact invalidate_keeps_iff hnot
  · split
    next hop =>
        subst hop
        refine ⟨(show T.peek s' = v₁ from hputs) ▸ hfades, fun ρ => ?_⟩
        have hreports (f : Eflag) (v : Bool)
            (hf : (Operation.logic _ (form.result T (T.peek s) .ptest ρ)).flag f = some v) :
            s'.eflags.Reports σ ρ f v := heq ▸ (hperf ρ).reports hf s.eflags
        have hzf := hreports .zf _ rfl
        have hcf := hreports .cf false rfl
        constructor
        · intro hflags _ hzero
          have hfalse := hcf.tells_iff.1 hflags.cf
          simp [hzero] at hfalse
        · intro hne
          refine ⟨hzf.tells_iff.2 ?_, hcf.tells_iff.2 ?_⟩
          · rw [BitVec.and_comm]
            rfl
          · exact (beq_eq_false_iff_ne.2 (hne hdep)).symm
    next hop =>
        have hw : op.write = true := by cases op <;> first | rfl | exact absurd rfl hop
        rw [hw, if_pos rfl] at hputs
        refine ⟨.inr ⟨v₁, hfades, hputs⟩, fun ρ => ?_⟩
        rw [heq, hflags]
        exact set_keeps_iff hdep hfs (hperf ρ)

end Handlers

open X86Reg (process shadow)

/-- The cell of the lowest byte of `XMM1`. -/
def xmm1Cell : Nat := 104

/-- Vector logic on `XMM0` and `XMM1`. -/
def xmmForm : VectorLogicForm X86Reg :=
  .regReg .xmm0 .xmm1

theorem xmmForm_depends : xmmForm.Depends process (process.peek (shadow [xmm1Cell])) :=
  ⟨.reg .xmm1, by simp [xmmForm, VectorLogicForm.src], .reg .ymm1 0, by decide,
    .read 0, rfl, by decide⟩

theorem xmmForm_ready : xmmForm.Ready process :=
  ⟨X86Reg.tracked (by decide), X86Reg.tracked (by decide)⟩

/-- `PTEST XMM0, XMM1` of zero and five. -/
theorem instrumentVectorLogic_ptest : ∃ s' l w',
    Runs (body quietSession) (process.instrumentBinaryRegReg .xmm0 .xmm1 .and false
      (shadow [xmm1Cell]))
      (freshWorld 1) ((), s', l) w' ∧
      PtestFlags quietSession (fun _ => 5) (0 : BitVec 128) 5 s'.eflags := by
  have h := instrumentVectorLogic_iff (σ := quietSession) X86Reg.registers_documented (T := process)
    rfl (X86Reg.shadow_init_wellFormed [xmm1Cell]) (X86Reg.shadow_consistent [xmm1Cell]) xmmForm
    (by decide) rfl xmmForm_ready .ptest (h := []) rfl
  obtain ⟨_, s', l, w', hr, hptest⟩ :=
    exists_run (n := 40) (w := freshWorld 1) h (by decide +kernel)
  let v := process.peek (shadow [xmm1Cell])
  have hiff : PtestFlags quietSession (fun _ => 5) (xmmForm.dstBv process v fun _ => 5)
      (xmmForm.srcBv process v fun _ => 5) s'.eflags ↔ (xmmForm.Depends process v →
        (xmmForm.srcBv process v fun _ => 5) &&& ~~~(xmmForm.dstBv process v fun _ => 5) ≠ 0) :=
    hptest.2 fun _ => 5
  have hsrc : (xmmForm.srcBv process v fun _ => 5) = (5 : BitVec 128) :=
    BitVec.eq_of_toNat_eq (by decide +kernel)
  have hdst : (xmmForm.dstBv process v fun _ => 5) = (0 : BitVec 128) :=
    BitVec.eq_of_toNat_eq (by decide +kernel)
  rw [hsrc, hdst] at hiff
  exact ⟨s', l, w', hr, hiff.2 fun _ => by decide⟩

/-- `PXOR XMM0, XMM1` makes flags known that were not. -/
theorem instrumentVectorLogic_not_keeps : ∃ s' l w',
    Runs (body quietSession) (process.instrumentBinaryRegReg .xmm0 .xmm1 .xor true
      (shadow [xmm1Cell]))
      (freshWorld 1) ((), s', l) w' ∧ ¬ NotFlags quietSession (fun _ => 5) [] s'.eflags := by
  have h := vectorLogic_achieves (σ := quietSession) X86Reg.registers_documented (T := process) rfl
    (X86Reg.shadow_init_wellFormed [xmm1Cell]) (X86Reg.shadow_consistent [xmm1Cell])
      xmmForm (by decide)
    rfl xmmForm_ready .pxor (Q := fun s' => ¬ NotFlags quietSession (fun _ => 5) [] s'.eflags)
    (fun s' hidle => ?_) fun s' v₁ fs hdep _ _ hfs heq hperf hflags => ?_
  · obtain ⟨_, s', l, w', hr, hnot⟩ :=
      exists_run (n := 40) (w := freshWorld 1) h (by decide +kernel)
    exact ⟨s', l, w', hr, hnot⟩
  · obtain ⟨o, ho, k, hk, hsym⟩ := xmmForm_depends
    exact absurd hsym (hidle.not_symbolic ho hk)
  · have heq : s'.eflags = (eflags []).set fs.kind fs.result fs.dst fs.src := heq
    rw [heq, set_keeps_iff hdep hfs (hperf fun _ => 5)] at hflags
    exact absurd ((hflags .zf nofun).1 hdep).1 (by decide)

end Process

end Qsym
