import Qsym.Builder.Chain
import Qsym.Builder.Within

/-!
# Qsym.Builder.Trimmed

The symbolic chain makes no extract that its own rules would have taken apart. On such
**trimmed** expressions a concatenation keeps every input byte: the rules that merge
adjacent extracts cut the same node again, and what was not simplified in parts is not
simplified as a whole. This is what makes the test `isConcrete` of a composed value as
good as testing its bytes (`concat_getDeps`).
-/

namespace Qsym

open Procedure Qsym.Expr Build

/-- Every extract below `e` has to be a node. -/
def Expr.Trimmed : Expr → Prop
  | bool _ _ | constant _ _ _ | read _ => True
  | concat _ l r => l.Trimmed ∧ r.Trimmed
  | extract _ e i b => e.Trimmed ∧ e.Cut i b
  | ext _ _ e _ => e.Trimmed
  | unary _ _ e => e.Trimmed
  | binary _ _ l r => l.Trimmed ∧ r.Trimmed
  | compare _ _ l r => l.Trimmed ∧ r.Trimmed
  | ite _ c t f => c.Trimmed ∧ t.Trimmed ∧ f.Trimmed

/-- A wider cut from the same place up is a cut as well. -/
theorem Expr.Cut.widen {e : Expr} {i b b' : Nat} (h : e.Cut i b) (hb : b ≤ b') : e.Cut i b' := by
  cases e with
  | concat ref l r => exact ⟨h.1, Nat.lt_of_lt_of_le h.2.1 (by omega), h.2.2⟩
  | ext ref k x w => exact ⟨Nat.lt_of_lt_of_le h.1 (by omega), h.2⟩
  | _ => exact h

theorem Expr.Trimmed.of_equalShallowly {e e' : Expr} (h : e'.Trimmed)
    (he : e.equalShallowly e' = true) : e.Trimmed := by
  cases e <;> cases e' <;> simp_all [equalShallowly, Trimmed]

/-- Shallowly equal nodes read the same bytes. -/
theorem Expr.getDeps_of_equalShallowly {e e' : Expr} (he : e.equalShallowly e' = true) :
    e.getDeps = e'.getDeps := by
  cases e <;> cases e' <;> simp_all [equalShallowly, getDeps]

theorem Expr.bits_of_equalShallowly {e e' : Expr} (he : e.equalShallowly e' = true) :
    e.bits = e'.bits := by
  cases e <;> cases e' <;> simp_all [equalShallowly, bits]

theorem parts_trimmed : Parts True Expr.Trimmed where
  bool _ _ := trivial
  constant _ _ _ := trivial
  concat _ _ _ := Iff.rfl
  extract _ _ _ _ h := h.1
  ext _ _ _ _ := Iff.rfl
  unary _ _ _ := Iff.rfl
  binary _ _ _ _ := by simp [Expr.Trimmed]
  compare _ _ _ _ := Iff.rfl
  ite _ _ _ _ := Iff.rfl
  shallow _ _ h he := h.of_equalShallowly he

/-! ### The chain keeps to trimmed expressions -/

/-- The tail of the chain below `CommonSimplifyExprBuilder`. -/
abbrev SymbolicExprBuilder.folding : ExprBuilder :=
  [.constantFolding, .cache, .base]

/-- The chain from `CommonSimplifyExprBuilder` on. -/
abbrev SymbolicExprBuilder.common : ExprBuilder :=
  .common :: folding

/-- The chain without its first layer. -/
abbrev SymbolicExprBuilder.symbolic : ExprBuilder :=
  .symbolic :: common

open SymbolicExprBuilder (folding common symbolic)

/-- A call of the chain on trimmed operands. An extract that has left
`CommonSimplifyExprBuilder` has to be a node, unless it still is to be folded. -/
def OnTrimmed (m : MethodCall) : Prop :=
  m.call.On True Expr.Trimmed ∧
    (m.builder ∈ [SymbolicExprBuilder.chain, symbolic, common] ∨
      m.builder = folding ∧ (∀ v i b, m.call = .extract v i b → v.isConstant = true ∨ v.Cut i b) ∨
      m.builder ∈ [[Layer.cache, .base], [.base]] ∧ ∀ v i b, m.call = .extract v i b → v.Cut i b)

theorem trimmed_node {c : Call} (h : c.On True Expr.Trimmed)
    (hcut : ∀ v i b, c = .extract v i b → v.Cut i b) (ref : Nat) : (c.node ref).Trimmed := by
  cases c with
  | extract v i b => exact ⟨h, hcut v i b rfl⟩
  | binary k l r => exact h.2
  | _ => exact h

theorem body_onTrimmed (σ : Session) (m : MethodCall) (h : OnTrimmed m) :
    (body σ m).Keeps OnTrimmed Expr.Trimmed Expr.Trimmed := by
  obtain ⟨b, c⟩ := m
  obtain ⟨hon, hb⟩ := h
  simp only [List.mem_cons, List.not_mem_nil, or_false] at hb
  have htop (b : ExprBuilder) (hb : b ∈ [SymbolicExprBuilder.chain, symbolic, common]) (c : Call)
      (h : c.On True Expr.Trimmed) : OnTrimmed ⟨b, c⟩ := ⟨h, .inl hb⟩
  have hfold (c : Call) (hc : ∀ v i b, c ≠ .extract v i b) (h : c.On True Expr.Trimmed) :
      OnTrimmed ⟨folding, c⟩ := ⟨h, .inr (.inl ⟨rfl, fun v i b he => absurd he (hc v i b)⟩)⟩
  obtain (rfl | rfl | rfl) | ⟨rfl, hcut⟩ | ⟨rfl | rfl, hcut⟩ := hb
  · exact CommutativeExprBuilder.body_keeps (htop _ List.mem_cons_self)
      (htop symbolic (by simp)) hon
  · exact SymbolicExprBuilder.body_keeps parts_trimmed (htop _ (by simp))
      (htop common (by simp)) hon
  · refine CommonSimplifyExprBuilder.body_keeps parts_trimmed (htop _ (by simp)) hfold
      (fun v i b hv hc => ⟨hv, .inr (.inl ⟨rfl, ?_⟩)⟩) hon
    rintro _ _ _ ⟨⟩
    exact hc
  · refine ConstantFoldingExprBuilder.body_keeps (fun n v => hfold _ nofun trivial)
      (fun b => hfold _ nofun trivial) hon fun hk =>
        ⟨hon, .inr (.inr ⟨by simp, fun v i b he => ?_⟩)⟩
    obtain h | h := hcut v i b he
    · exact absurd ((hk v i b he).symm.trans h) Bool.false_ne_true
    · exact h
  · exact cache_keeps parts_trimmed σ ⟨hon, .inr (.inr ⟨by simp, hcut⟩)⟩
  · exact base_keeps hon (trimmed_node hon hcut)

/-- **The builder makes trimmed expressions out of trimmed ones.** -/
theorem chain_trimmed (σ : Session) {ok : MethodCall → Prop} {c : Call}
    (h : c.On True Expr.Trimmed) :
    Yields (body σ) ok (SymbolicExprBuilder.chain.create c) Expr.Trimmed :=
  .of_keeps (body_onTrimmed σ) (keeps_handOn ⟨h, .inl List.mem_cons_self⟩)

/-! ### Concatenation keeps every dependency -/

section Deps

variable {σ : Session} {ok : MethodCall → Prop}

theorem yields_create {b : ExprBuilder} {c : Call} {Q : Expr → Prop}
    (h : Yields (body σ) ok (body σ ⟨b, c⟩) Q) : Yields (body σ) ok (b.create c) Q :=
  .call fun _ => h

theorem makeShared_yields (c : Call) :
    Yields (body σ) ok (Build.makeShared c) (fun x => ∃ ref, x = c.node ref) := by
  unfold Build.makeShared
  split
  · exact .get fun w => .set (.ret ⟨w.nextRef, rfl⟩)
  · exact .stop

/-- A cached node is shallowly equal to the new one. -/
theorem cache_yields {next : ExprBuilder} {c : Call} {Q : Expr → Prop}
    (h : Yields (body σ) ok (next.create c) Q)
    (hQ : ∀ e e', Q e' → e.equalShallowly e' = true → Q e) :
    Yields (body σ) ok (CacheExprBuilder.body σ next c) Q := by
  have hfind : Yields (body σ) ok (next.create c >>= CacheExprBuilder.findOrInsert σ) Q := by
    refine h.bind fun e he => .get fun w => .set ?_
    show Yields _ _ (CacheExprBuilder.handOut σ e (w.cache.find (σ.expired w.tick) e)) Q
    cases hf : w.cache.find (σ.expired w.tick) e with
    | none => exact .get fun w => .set (.ret he)
    | some x =>
        have hx := List.find?_some hf
        simp only [Bool.and_eq_true] at hx
        exact .ret (hQ x e he hx.2)
  cases c with
  | bool | constant | read => exact h
  | _ => exact hfind

theorem base_getDeps (c : Call) :
    Yields (body σ) ok (ExprBuilder.create [.base] c) (fun x => x.getDeps = c.plain.getDeps) := by
  have hnode : Yields (body σ) ok (Build.makeShared c) (fun x => x.getDeps = c.plain.getDeps) :=
    (makeShared_yields c).mono fun x ⟨ref, hx⟩ => by cases c <;> rw [hx] <;> rfl
  refine yields_create ?_
  cases c with
  | read off => exact .ret rfl
  | extract e i b =>
      show Yields _ _ (if b = e.bits then .ret e else _) _
      split
      · exact .ret rfl
      · exact hnode
  | _ => exact hnode

theorem cache_getDeps (c : Call) :
    Yields (body σ) ok (ExprBuilder.create [.cache, .base] c)
      (fun x => x.getDeps = c.plain.getDeps) :=
  yields_create (cache_yields (base_getDeps c) fun _ _ h he =>
    (getDeps_of_equalShallowly he).trans h)

theorem folding_constant (n : Nat) (v : BitVec n) :
    Yields (body σ) ok (folding.create (.constant n v)) (fun x => x.isConstant = true) := by
  refine yields_create (yields_create (yields_create ?_))
  exact (makeShared_yields (.constant n v)).mono fun x ⟨ref, hx⟩ => by rw [hx]; rfl

theorem folding_extract (e : Expr) (i b : Nat) :
    Yields (body σ) ok (folding.createExtract e i b) (fun x => x.getDeps = e.getDeps) := by
  refine yields_create ?_
  show Yields _ _ (ConstantFoldingExprBuilder.createExtract folding _ e i b) _
  unfold ConstantFoldingExprBuilder.createExtract
  split
  · exact (folding_constant _ _).mono fun x hx => by
      obtain ⟨_, _, _, rfl⟩ := isConstant_iff.1 hx
      rfl
  · exact cache_getDeps _

theorem folding_concat (l r : Expr) :
    Yields (body σ) ok (folding.createConcat l r) (fun x =>
      x.getDeps = l.getDeps ∪ r.getDeps ∧
        (l.isConstant = true → r.isConstant = true → x.isConstant = true)) := by
  refine yields_create ?_
  show Yields _ _ (ConstantFoldingExprBuilder.createConcat folding _ l r) _
  unfold ConstantFoldingExprBuilder.createConcat
  split
  next =>
      refine (folding_constant _ _).mono fun x hx => ⟨?_, fun _ _ => hx⟩
      obtain ⟨_, _, _, rfl⟩ := isConstant_iff.1 hx
      rfl
  next h =>
      refine (cache_getDeps _).mono fun x hx => ⟨hx, fun hl hr => ?_⟩
      obtain ⟨_, _, _, rfl⟩ := isConstant_iff.1 hl
      obtain ⟨_, _, _, rfl⟩ := isConstant_iff.1 hr
      exact absurd rfl (h _ _ _ _ _ _ rfl)

/-- What has to be a node is cut without a loss. -/
theorem common_extract {e : Expr} {i b : Nat} (h : e.Cut i b) :
    Yields (body σ) ok (common.createExtract e i b) (fun x => x.getDeps = e.getDeps) := by
  have hwhole : Yields (body σ) ok (CommonSimplifyExprBuilder.createExtractWhole folding e i b)
      (fun x => x.getDeps = e.getDeps) := by
    unfold CommonSimplifyExprBuilder.createExtractWhole
    split
    · exact .ret rfl
    · exact folding_extract e i b
  refine yields_create ?_
  show Yields _ _ (CommonSimplifyExprBuilder.createExtract common folding e i b) _
  cases e with
  | concat ref l r =>
      obtain ⟨hi, hb, hk⟩ := h
      simpa only [CommonSimplifyExprBuilder.createExtract, Nat.not_le.2 hi, Nat.not_le.2 hb, hk,
        if_false, Bool.false_eq_true] using hwhole
  | ext ref k x w =>
      obtain ⟨hb, hz⟩ := h
      have hz : ¬ (k = .zext ∧ x.bits ≤ i) := fun h => Nat.not_le.2 (hz h.1) h.2
      simpa only [CommonSimplifyExprBuilder.createExtract, Nat.not_le.2 hb, hz, if_false]
        using hwhole
  | extract | constant => exact h.elim
  | _ => exact hwhole

/-- The result of a concatenation: it reads what its operands read, and constants
make a constant. -/
def Joins (l r x : Expr) : Prop :=
  x.getDeps = l.getDeps ∪ r.getDeps ∧
    (l.isConstant = true → r.isConstant = true → x.isConstant = true)

theorem common_concatExt {l : Expr} (r : Expr) (hl : l.WellSorted) :
    Yields (body σ) ok (CommonSimplifyExprBuilder.createConcatExt common folding l r)
      (Joins l r) := by
  unfold CommonSimplifyExprBuilder.createConcatExt
  split
  next ref ref' k e w i b =>
      split
      next hadj =>
          obtain ⟨hi, heq⟩ := hadj
          obtain ⟨⟨he, -, -⟩, -, hb, -⟩ := hl
          have hbits : e.bits = r.bits := bits_of_equalShallowly heq
          have hcut : (Expr.ext ref' k e w).Cut 0 (b + r.bits) := ⟨by omega, fun _ => he.bits_pos⟩
          refine (common_extract hcut).mono fun x hx => ⟨hx.trans ?_, nofun⟩
          show e.getDeps = e.getDeps ∪ r.getDeps
          rw [getDeps_of_equalShallowly heq, Finset.union_idempotent]
      next => exact folding_concat _ r
  next => exact folding_concat _ r

/-- Two adjacent extracts are merged into an extract that has to be a node as well. -/
theorem common_concat {l r : Expr} (hl : l.WellSorted) (hr : r.Trimmed) :
    Yields (body σ) ok (common.createConcat l r) (Joins l r) := by
  refine yields_create ?_
  show Yields _ _ (CommonSimplifyExprBuilder.createConcat common folding l r) _
  unfold CommonSimplifyExprBuilder.createConcat
  split
  next ref e i b ref' e' i' b' =>
      split
      next hadj =>
          obtain ⟨rfl, -⟩ := hadj
          refine (common_extract (hr.2.widen (Nat.le_add_right b' b))).mono fun x hx => ⟨?_, nofun⟩
          exact hx.trans (Finset.union_idempotent _).symm
      next => exact common_concatExt _ hl
  next => exact common_concatExt r hl

theorem common_concat_constant {l : Expr} (r : Expr) (hk : l.isConstant = true) :
    Yields (body σ) ok (common.createConcat l r) (Joins l r) := by
  obtain ⟨ref, n, v, rfl⟩ := isConstant_iff.1 hk
  exact yields_create (folding_concat _ r)

/-- A constant on the left goes into the constants at the left end of `r`. -/
theorem symbolic_concat_constant {l : Expr} (r : Expr) (hk : l.isConstant = true) :
    Yields (body σ) ok (symbolic.createConcat l r) (Joins l r) := by
  induction r generalizing l with
  | concat ref x y ihx ihy =>
      have hwhole : Yields (body σ) ok (common.createConcat l (.concat ref x y)) (Joins l _) :=
        common_concat_constant _ hk
      refine yields_create ?_
      show Yields _ _ (SymbolicExprBuilder.createConcat symbolic common l (.concat ref x y)) _
      obtain ⟨ref', n, v, rfl⟩ := isConstant_iff.1 hk
      simp only [SymbolicExprBuilder.createConcat]
      split
      next hx =>
          refine (ihx hk).bind fun lx hlx => (ihy (hlx.2 hk hx)).mono fun z hz =>
            ⟨?_, by rintro _ ⟨⟩⟩
          show z.getDeps = ∅ ∪ (x.getDeps ∪ y.getDeps)
          rw [hz.1, hlx.1, Finset.union_assoc]
          rfl
      next => exact hwhole
  | _ =>
      obtain ⟨ref, n, v, rfl⟩ := isConstant_iff.1 hk
      exact yields_create (common_concat_constant _ hk)

theorem symbolic_trimmed {c : Call} (h : c.On True Expr.Trimmed) :
    Yields (body σ) ok (symbolic.create c) Expr.Trimmed :=
  .of_keeps (body_onTrimmed σ) (keeps_handOn ⟨h, .inl (by simp)⟩)

theorem symbolic_concat {l r : Expr} (hw : l.WellSorted) (hl : l.Trimmed) (hr : r.Trimmed) :
    Yields (body σ) ok (symbolic.createConcat l r) (Joins l r) := by
  induction l generalizing r with
  | constant ref n v => exact symbolic_concat_constant r rfl
  | concat ref x y ihx ihy =>
      have hyr := (ihy hw.2.1 hl.2 hr).and (symbolic_trimmed (c := .concat y r) ⟨hl.2, hr⟩)
      refine yields_create (hyr.bind fun yr hyr => ?_)
      refine (ihx hw.1 hl.1 hyr.2).mono fun z hz => ⟨?_, nofun⟩
      rw [hz.1, hyr.1.1, ← Finset.union_assoc]
      rfl
  | _ => exact yields_create (common_concat hw hr)

/-- **A concatenation of trimmed expressions reads what its operands read.** -/
theorem concat_getDeps {l r : Expr} (hw : l.WellSorted) (hl : l.Trimmed) (hr : r.Trimmed) :
    Yields (body σ) ok (SymbolicExprBuilder.chain.createConcat l r)
      (fun x => x.getDeps = l.getDeps ∪ r.getDeps) :=
  yields_create ((symbolic_concat hw hl hr).mono fun _ h => h.1)

end Deps

end Qsym
