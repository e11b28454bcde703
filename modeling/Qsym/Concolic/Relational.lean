import Qsym.Concolic.Describes
import Qsym.Solver.PathCondition

/-!
# Qsym.Concolic.Relational

The conditions of jumps are **relational**. `Solver::addJcc` takes a literal, or a comparison or a
connective, perhaps negated, and nothing else. The symbolic chain answers a comparison, a
negation, a disjunction or a conjunction with one of these (`chain_relational`): the one rule that
hands on an operand instead, the equality of truth values, hands on a truth value. So do the
methods of the flags after an operation that defines all of them. -/

namespace Qsym

open Procedure Qsym.Expr X86

variable {σ : Session} {ok : MethodCall → Prop} {e l r x : Expr} {c : Call}

/-- A literal, or a relation, behind negations. -/
def Expr.isTest (e : Expr) : Bool :=
  match e.core with
  | .bool _ _ => true
  | c => c.isRelational

/-- A truth value is no bit vector. -/
theorem Expr.core_of_isTest (h : e.isTest = true) (hc : e.isConcrete = false) :
    e.core.isRelational = true := by
  induction e with
  | bool => cases hc
  | unary ref k x ih =>
      cases k with
      | lnot => exact ih h hc
      | _ => exact h
  | _ => exact h

/-- Shallowly equal nodes are alike. -/
theorem Expr.isTest_of_equalShallowly (h : x.isTest = true) (he : e.equalShallowly x = true) :
    e.isTest = true := by
  cases x with
  | unary ref kind y =>
      cases e with
      | unary ref' kind' y' =>
          obtain ⟨rfl, rfl⟩ : kind' = kind ∧ y' = y := by simpa [equalShallowly] using he
          cases kind' <;> exact h
      | _ => cases he
  | binary ref kind l r =>
      cases e with
      | binary ref' kind' l' r' =>
          obtain ⟨⟨rfl, -⟩, -⟩ : (kind' = kind ∧ l' = l) ∧ r' = r := by
            simpa [equalShallowly] using he
          cases kind' <;> first | rfl | cases h
      | _ => cases he
  | _ => cases e <;> simp_all [equalShallowly, isTest, core, isRelational]

/-- The call makes a truth value of truth values, or compares. Only the equality of a literal with
something hands this on. -/
def Call.OnTests : Call → Prop
  | .bool _ => True
  | .compare _ l r => (∃ ref b, l = .bool ref b) → r.isTest = true
  | .unary .lnot e => e.isTest = true
  | .binary .lor l r | .binary .land l r => l.isTest = true ∧ r.isTest = true
  | _ => False

/-- A call that makes a truth value, of a chain that does not prune. -/
def MethodCall.Tests (m : MethodCall) : Prop :=
  m.call.OnTests ∧ .prune ∉ m.builder

open Build

/-- The programs whose calls make truth values, and that return one. -/
abbrev Build.KeepsTests (p : Build Expr) : Prop :=
  p.Keeps MethodCall.Tests (fun e => e.isTest = true) fun e => e.isTest = true

section Layers

variable {layer : Layer} {next : ExprBuilder}

theorem create_keepsTests {b : ExprBuilder} (hb : .prune ∉ b) (h : c.OnTests) :
    KeepsTests (b.create c) :=
  keeps_handOn ⟨h, hb⟩

theorem createBool_keepsTests {b : ExprBuilder} (hb : .prune ∉ b) (value : Bool) :
    KeepsTests (b.createBool value) :=
  create_keepsTests hb trivial

theorem base_keepsTests (h : c.OnTests) : KeepsTests (BaseExprBuilder.body c) := by
  cases c with
  | bool => exact makeShared_keeps fun _ => rfl
  | compare => exact makeShared_keeps fun _ => rfl
  | unary k e =>
      cases k with
      | lnot => exact makeShared_keeps fun _ => h
      | _ => cases h
  | binary k l r =>
      cases k with
      | lor | land => exact makeShared_keeps fun _ => rfl
      | _ => cases h
  | _ => cases h

theorem cache_keepsTests (σ : Session) (hnext : .prune ∉ next) (h : c.OnTests) :
    KeepsTests (CacheExprBuilder.body σ next c) := by
  have hfind : KeepsTests (next.create c >>= CacheExprBuilder.findOrInsert σ) := by
    refine keeps_create_bind.2 ⟨⟨h, hnext⟩, fun e he w => ?_⟩
    show Program.Keeps _ _ _ (CacheExprBuilder.handOut σ e (w.cache.find (σ.expired w.tick) e))
    cases hf : w.cache.find (σ.expired w.tick) e with
    | none => exact fun w => he
    | some x =>
        have hx := List.find?_some hf
        simp only [Bool.and_eq_true] at hx
        exact Expr.isTest_of_equalShallowly he hx.2
  cases c with
  | bool => exact create_keepsTests hnext h
  | constant | read => cases h
  | _ => exact hfind

theorem constantFolding_keepsTests (hnext : .prune ∉ next) (h : c.OnTests) :
    KeepsTests (ConstantFoldingExprBuilder.body (.constantFolding :: next) next c) := by
  have hthis : .prune ∉ Layer.constantFolding :: next := by simpa using hnext
  cases c with
  | bool => exact create_keepsTests hnext h
  | compare k l r =>
      simp only [ConstantFoldingExprBuilder.body, ConstantFoldingExprBuilder.createCompare]
      split
      · split
        · exact createBool_keepsTests hthis _
        · trivial
      · split
        · exact createBool_keepsTests hthis _
        · exact createBool_keepsTests hthis _
        · exact create_keepsTests hnext fun _ => rfl
      · exact create_keepsTests hnext h
  | unary k e =>
      cases k with
      | lnot =>
          simp only [ConstantFoldingExprBuilder.body, ConstantFoldingExprBuilder.createUnary]
          split
          · contradiction
          · contradiction
          · exact createBool_keepsTests hthis _
          · exact create_keepsTests hnext h
      | _ => cases h
  | binary k l r =>
      cases k with
      | lor | land =>
          simp only [ConstantFoldingExprBuilder.body, ConstantFoldingExprBuilder.createLOr,
            ConstantFoldingExprBuilder.createLAnd]
          split
          · exact createBool_keepsTests hthis _
          · exact create_keepsTests hnext h
      | _ => cases h
  | _ => cases h

theorem common_keepsTests (hnext : .prune ∉ next) (h : c.OnTests) :
    KeepsTests (CommonSimplifyExprBuilder.body (.common :: next) next c) := by
  have hthis : .prune ∉ Layer.common :: next := by simpa using hnext
  cases c with
  | bool => exact create_keepsTests hnext h
  | compare k l r =>
      cases k with
      | equal =>
          simp only [CommonSimplifyExprBuilder.body, CommonSimplifyExprBuilder.createEqual]
          split
          next ref b =>
              have hr := h ⟨ref, b, rfl⟩
              split
              · exact hr
              · exact create_keepsTests hthis hr
          next => exact create_keepsTests hnext h
      | _ => exact create_keepsTests hnext h
  | unary k e =>
      cases k with
      | lnot => exact create_keepsTests hnext h
      | _ => cases h
  | binary k l r =>
      cases k with
      | lor | land => exact create_keepsTests hnext h
      | _ => cases h
  | _ => cases h

theorem symbolic_keepsTests (hnext : .prune ∉ next) (h : c.OnTests) :
    KeepsTests (SymbolicExprBuilder.body (.symbolic :: next) next c) := by
  have hthis : .prune ∉ Layer.symbolic :: next := by simpa using hnext
  cases c with
  | bool => exact create_keepsTests hnext h
  | compare k l r =>
      cases k with
      | equal =>
          simp only [SymbolicExprBuilder.body, SymbolicExprBuilder.createEqual]
          split
          · exact createBool_keepsTests hthis _
          · exact create_keepsTests hnext h
      | distinct =>
          exact keeps_create_bind.2 ⟨⟨h, hthis⟩, fun e he => create_keepsTests hthis he⟩
      | _ => exact create_keepsTests hnext h
  | unary k e =>
      cases k with
      | lnot =>
          simp only [SymbolicExprBuilder.body, SymbolicExprBuilder.createLNot]
          split
          · exact createBool_keepsTests hthis _
          · exact h
          · exact create_keepsTests hnext h
      | _ => cases h
  | binary k l r =>
      cases k with
      | lor =>
          simp only [SymbolicExprBuilder.body, SymbolicExprBuilder.createLOr]
          split
          · split
            · exact createBool_keepsTests hthis _
            · exact h.2
          · split
            · exact createBool_keepsTests hthis _
            · exact h.1
          · exact create_keepsTests hnext h
      | land =>
          simp only [SymbolicExprBuilder.body, SymbolicExprBuilder.createLAnd]
          split
          · split
            · exact h.2
            · exact createBool_keepsTests hthis _
          · split
            · exact h.1
            · exact createBool_keepsTests hthis _
          · exact create_keepsTests hnext h
      | _ => cases h
  | _ => cases h

theorem commutative_keepsTests (hnext : .prune ∉ next) (h : c.OnTests) :
    KeepsTests (CommutativeExprBuilder.body (.commutative :: next) next c) := by
  have hthis : .prune ∉ Layer.commutative :: next := by simpa using hnext
  cases c with
  | bool => exact create_keepsTests hnext h
  | compare k l r =>
      simp only [CommutativeExprBuilder.body, CommutativeExprBuilder.createCompare]
      split
      next hr =>
          refine create_keepsTests hthis ?_
          rintro ⟨ref, b, rfl⟩
          cases hr.2
      next => exact create_keepsTests hnext h
  | unary k e =>
      cases k with
      | lnot => exact create_keepsTests hnext h
      | _ => cases h
  | binary k l r =>
      cases k with
      | lor | land =>
          simp only [CommutativeExprBuilder.body, CommutativeExprBuilder.createCommutative]
          split
          · split
            · exact create_keepsTests hthis ⟨h.2, h.1⟩
            · exact create_keepsTests hnext h
          · exact create_keepsTests hnext h
      | _ => cases h
  | _ => cases h

end Layers

theorem body_keepsTests (σ : Session) (m : MethodCall) (h : m.Tests) : KeepsTests (body σ m) := by
  obtain ⟨_ | ⟨layer, next⟩, c⟩ := m
  · trivial
  · obtain ⟨h, hprune⟩ := h
    have hnext : .prune ∉ next := fun hmem => hprune (List.mem_cons_of_mem _ hmem)
    cases layer with
    | base => exact base_keepsTests h
    | cache => exact cache_keepsTests σ hnext h
    | constantFolding => exact constantFolding_keepsTests hnext h
    | common => exact common_keepsTests hnext h
    | symbolic => exact symbolic_keepsTests hnext h
    | commutative => exact commutative_keepsTests hnext h
    | prune => exact absurd List.mem_cons_self hprune

open SymbolicExprBuilder (chain)

/-- **What the chain answers is relational.** -/
theorem chain_relational (h : c.OnTests) :
    Yields (body σ) ok (chain.create c) fun e => e.isTest = true := by
  intro w e w' _ hr
  exact Program.Keeps.result (body_keepsTests σ) (create_keepsTests (by decide) h) hr

/-- A comparison of a bit vector. -/
theorem compare_relational (k : CompareKind) (hl : l.isBoolean = false) (r : Expr) :
    Yields (body σ) ok (chain.create (.compare k l r)) fun e => e.isTest = true := by
  refine chain_relational ?_
  rintro ⟨ref, b, rfl⟩
  cases hl

/-! ### Flags -/

/-- The expression is relational, if there is one. -/
abbrev Expr.OptTest (x : Option Expr) : Prop :=
  ∀ e, x = some e → e.isTest = true

theorem Expr.optTest (h : e.isTest = true) : OptTest (some e) := by
  rintro _ ⟨⟩
  exact h

/-- Something comes first. -/
theorem Build.Yields.after {α β : Type} {p : Build α} {f : α → Build β} {P : β → Prop}
    (h : ∀ x, Yields (body σ) ok (f x) P) : Yields (body σ) ok (p >>= f) P :=
  Yields.bind (P := fun _ => True) (fun _ _ _ _ _ => trivial) fun x _ => h x

open X86 Build.Yields

/-- The answer is relational. -/
abbrev Build.Relates (σ : Session) (p : Build Expr) : Prop :=
  Yields (body σ) anyCall p fun e => e.isTest = true

/-- So is it if there is one. -/
abbrev Build.OptRelates (σ : Session) (p : Build (Option Expr)) : Prop :=
  Yields (body σ) anyCall p OptTest

theorem Build.Relates.opt {p : Build Expr} (h : Relates σ p) :
    OptRelates σ (do
      let e ← p
      return some e) :=
  Yields.bind h fun _ he => .ret (optTest he)

namespace FlagOperation

variable {ρ : Input} {n : Nat} {v r d s : Input → BitVec n} {er ed es : Expr} {op : FlagOperation}
variable {p : Input → Bool}

theorem bitToBool_relational (he : Denotes (· = ρ) 1 (fun ρ => BitVec.ofBool (p ρ)) e) :
    Relates σ (bitToBool chain e) := by
  unfold bitToBool
  split
  · exact after fun one => compare_relational .equal he.isBV.isBoolean one
  · exact .stop

theorem computePF_relational : Relates σ (op.computePF chain) := by
  refine Yields.bind (Yields.of_total (createConstant_node 0 Nat.one_pos)) ?_
  rintro _ ⟨ref, rfl⟩
  exact after fun result => after fun bit => after fun res => compare_relational .equal rfl res

/-- The comparison of the result with a constant. -/
theorem compareResult_relational (hop : op.result = some er) (hr : Denotes (· = ρ) n r er)
    (k : CompareKind) (w : (n : Nat) → BitVec n) :
    Relates σ (do
      let result ← deref op.result
      let imm ← chain.create (.constant result.bits (w result.bits))
      chain.create (.compare k result imm)) := by
  rw [hop]
  simp only [deref_some, Program.bind_eq, Program.ret_bind]
  exact after fun imm => compare_relational k hr.isBV.isBoolean imm

/-- Two signs, one that of the result and the destination. -/
theorem signs_relational {x : Expr} (hx : Denotes (· = ρ) n v x) (hop : op.result = some er)
    (hr : Denotes (· = ρ) n r er) (hd : Denotes (· = ρ) n d ed) :
    Relates σ (do
      let e ← createMsb chain x
      let result ← deref op.result
      let e2 ← chain.createXor result ed
      let e2 ← createMsb chain e2
      let e ← chain.createAnd e e2
      bitToBool chain e) := by
  have hb := chain_soundSimply σ (· = ρ)
  simp only [hop, deref_some, Program.bind_eq, Program.ret_bind]
  refine Yields.bind (.of_total (createMsb_builds hb hx)) fun x hx => ?_
  refine Yields.bind (.of_total (hb.binary (k := .xor) rfl rfl hr hd)) fun y hy => ?_
  refine Yields.bind (.of_total (createMsb_builds hb hy)) fun y hy => ?_
  exact Yields.bind (.of_total (and_bits_builds hb hx hy)) fun z hz => bitToBool_relational hz

variable (hopd : op.dst = some ed) (hops : op.src = some es) (hr : op.result = some er)
  (hdr : Denotes (· = ρ) n r er) (hdd : Denotes (· = ρ) n d ed) (hds : Denotes (· = ρ) n s es)
include hopd hops hr hdr hdd hds

theorem addOF_relational : Relates σ (op.addOF chain) := by
  have hb := chain_soundSimply σ (· = ρ)
  rw [addOF, hopd, hops]
  simp only [deref_some, Program.bind_eq, Program.ret_bind]
  refine Yields.bind (.of_total (hb.binary (k := .xor) rfl rfl hdd hds)) fun x hx => ?_
  refine Yields.bind (.of_total (hb.unary (k := .not) rfl (by decide) hx)) fun x hx => ?_
  exact signs_relational hx hr hdr hdd

theorem subOF_relational : Relates σ (op.subOF chain) := by
  have hb := chain_soundSimply σ (· = ρ)
  rw [subOF, hopd, hops]
  simp only [deref_some, Program.bind_eq, Program.ret_bind]
  refine Yields.bind (.of_total (hb.binary (k := .xor) rfl rfl hdd hds)) fun x hx => ?_
  exact signs_relational hx hr hdr hdd

end FlagOperation

open FlagOperation

variable {ρ : Input} {fs : FlagSet} {op : Operation}

/-- **The methods of the flags are relational**, after an operation that defines all of them. -/
theorem Performs.compute_relational (h : Performs ρ fs op) (hk : fs.kind.DefinesAll) {f : Eflag}
    {p : Build Expr}
    (hp : fs.operation.compute chain fs.kind f = some p) : Relates σ p := by
  have hb := chain_soundSimply σ (· = ρ)
  have hlogic : Relates σ (chain.createBool false) := chain_relational trivial
  have hresult {n : Nat} {r : Input → BitVec n} {er : Expr} (hop : fs.operation.result = some er)
      (hr : Denotes (· = ρ) n r er) (hp : fs.operation.compute chain fs.kind f = some p)
      (hf : f ≠ .cf) (hf' : f ≠ .of) : Relates σ p := by
    cases f with
    | cf | of => contradiction
    | af => cases hp
    | pf => cases hp; exact computePF_relational
    | zf => cases hp; exact compareResult_relational hop hr .equal fun n => BitVec.ofNat n 0
    | sf => cases hp; exact compareResult_relational hop hr .slt fun n => BitVec.ofNat n 0
  cases h with
  | add hn hr hd hs =>
      cases f with
      | cf => cases hp; exact compare_relational .ult hr.isBV.isBoolean _
      | of => cases hp; exact addOF_relational rfl rfl rfl hr hd hs
      | _ => exact hresult rfl hr hp nofun nofun
  | sub hn hr hd hs =>
      cases f with
      | cf => cases hp; exact compare_relational .ult hd.isBV.isBoolean _
      | of => cases hp; exact subOF_relational rfl rfl rfl hr hd hs
      | _ => exact hresult rfl hr hp nofun nofun
  | logic hn hr =>
      cases f with
      | cf | of => cases hp; exact hlogic
      | _ => exact hresult rfl hr hp nofun nofun
  | _ => rcases hk with hk | hk | hk <;> cases hk

/-! ### Conditions -/

section Conditions

open FlagHistory

variable {e : Eflags} {jcc : JccKind} {inv : Bool} {x : Option Expr} {h : FlagHistory}

theorem deref_relates (hx : OptTest x) : Relates σ (deref x) := by
  cases x with
  | none => exact .stop
  | some e => exact .ret (hx e rfl)

theorem slowInvert_relates (hx : OptTest x) : OptRelates σ (Eflags.slowInvert chain inv x) := by
  unfold Eflags.slowInvert
  split
  · exact Yields.bind (deref_relates hx) fun r hr => Relates.opt (chain_relational hr)
  · exact .ret hx

section

variable (hflag : ∀ f, f ≠ .af → OptRelates σ (e.computeFlag chain f))
include hflag

theorem slowFlag_relates : OptRelates σ (e.slowFlag chain jcc) := by
  cases jcc with
  | b | be => exact hflag .cf nofun
  | l | le =>
      refine Yields.bind (hflag .sf nofun) fun sf hsf => Yields.bind (hflag .of nofun)
        fun of hof => ?_
      refine Yields.bind (deref_relates hsf) fun sf hsf => Yields.bind (deref_relates hof)
        fun of hof => ?_
      exact Relates.opt (chain_relational fun _ => hof)
  | s => exact hflag .sf nofun
  | z => exact after fun _ => hflag .of nofun
  | o => exact hflag .of nofun
  | p => exact hflag .pf nofun

theorem slowEqual_relates (hx : OptTest x) : OptRelates σ (e.slowEqual chain jcc x) := by
  unfold Eflags.slowEqual
  split
  · refine Yields.bind (hflag .zf nofun) fun zf hzf => Yields.bind (deref_relates hx) fun r hr => ?_
    exact Yields.bind (deref_relates hzf) fun zf hzf => Relates.opt (chain_relational ⟨hr, hzf⟩)
  · exact .ret hx

theorem computeSlowJcc_relates : OptRelates σ (e.computeSlowJcc chain jcc inv) :=
  Yields.bind (slowFlag_relates hflag) fun _ hx =>
    Yields.bind (slowEqual_relates hflag hx) fun _ hy =>
    slowInvert_relates hy

end

/-- The comparison of a result with zero. -/
theorem computeZeroJcc_relates {op : FlagOperation} {n : Nat} {r : Input → BitVec n} {er : Expr}
    (hop : op.result = some er) (hr : Denotes (· = ρ) n r er) (kind : OpKind) :
    OptRelates σ (Eflags.computeZeroJcc chain op kind jcc inv) := by
  unfold Eflags.computeZeroJcc
  split
  · exact .ret nofun
  next k _ =>
    rw [hop]
    simp only [deref_some, Program.bind_eq, Program.ret_bind]
    exact after fun zero => Relates.opt (compare_relational k hr.isBV.isBoolean zero)

variable (hop : Performs ρ fs op) (hk : fs.kind.DefinesAll)
include hop hk

theorem computeFastJcc_relates :
    OptRelates σ ((eflags (.set fs :: h)).computeFastJcc chain jcc inv) := by
  have hsets : sets (.set fs :: h) = fs :: sets h := rfl
  rw [Eflags.computeFastJcc, opKinds_start hsets]
  simp only [operations_start hsets]
  cases hop with
  | add hn hr hd hs => exact computeZeroJcc_relates rfl hr .add
  | logic hn hr => exact computeZeroJcc_relates rfl hr .logic
  | sub hn hr hd hs =>
      rw [if_pos rfl]
      split
      next k _ =>
        simp only [FlagOperation.set, deref_some, Program.bind_eq, Program.ret_bind]
        exact Relates.opt (compare_relational _ hd.isBV.isBoolean _)
      next =>
        split
        · exact computeZeroJcc_relates rfl hr .sub
        · exact .ret (by rintro _ ⟨⟩)
  | _ => rcases hk with hk | hk | hk <;> cases hk

/-- **The condition of a jump is relational**, after an operation that defines every flag. -/
theorem computeJcc_relates : OptRelates σ ((eflags (.set fs :: h)).computeJcc chain jcc inv) := by
  have hflag (f : Eflag) (hf : f ≠ .af) :
      OptRelates σ ((eflags (.set fs :: h)).computeFlag chain f) := by
    obtain ⟨p, hp⟩ : ∃ p, fs.operation.compute chain fs.kind f = some p := by
      cases f <;> first | exact ⟨_, rfl⟩ | contradiction
    have htouches : fs.kind.touches f = true := touches_of_defines (hk.defines hf)
    show OptRelates σ (((eflags h).set fs.kind fs.result fs.dst fs.src).computeFlag chain f)
    rw [Eflags.computeFlag_set chain htouches hp]
    exact Relates.opt (hop.compute_relational hk hp)
  unfold Eflags.computeJcc
  split
  · refine Yields.bind (computeFastJcc_relates hop hk) fun r hr => ?_
    cases r with
    | some r => exact .ret hr
    | none => exact computeSlowJcc_relates hflag
  · exact .ret nofun

end Conditions

end Qsym
