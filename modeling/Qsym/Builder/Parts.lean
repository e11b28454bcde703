import Qsym.Builder.Layers

/-!
# Qsym.Builder.Parts

The builders work with the **parts** of their operands: what a method body calls a
builder with, and what it returns, is put together from subterms of the operands,
from results of other calls and from constants. So a property of expressions that
looks at their parts (`Parts`) is kept by every layer above `base`, whatever it says.

The properties in use are `Expr.Over` (the input bytes read) and `Expr.Trimmed` (no
extract that the rules would have taken apart). For the second one an extract is
special, which is why `Cut` goes along with the calls that leave
`CommonSimplifyExprBuilder`.
-/

namespace Qsym

open Procedure Qsym.Expr

/-- No rule of `CommonSimplifyExprBuilder::createExtract` applies, and there is no
constant to fold: the extract has to be a node. -/
def Expr.Cut (index bits : Nat) : Expr → Prop
  | .concat _ l r => index < r.bits ∧ r.bits < index + bits ∧ l.isConstant = false
  | .ext _ k x _ => x.bits < index + bits ∧ (k = .zext → index < x.bits)
  | .extract .. | .constant .. => False
  | _ => True

/-- `V` is a property of the parts of an expression, and divisions occur only if `D`. -/
structure Parts (D : Prop) (V : Expr → Prop) : Prop where
  bool : ∀ ref b, V (.bool ref b)
  constant : ∀ ref n v, V (.constant ref n v)
  concat : ∀ ref l r, V (.concat ref l r) ↔ V l ∧ V r
  extract : ∀ ref e i b, V (.extract ref e i b) → V e
  ext : ∀ ref k e b, V (.ext ref k e b) ↔ V e
  unary : ∀ ref k e, V (.unary ref k e) ↔ V e
  binary : ∀ ref k l r, V (.binary ref k l r) ↔ (k.isDivision = true → D) ∧ V l ∧ V r
  compare : ∀ ref k l r, V (.compare ref k l r) ↔ V l ∧ V r
  ite : ∀ ref c t f, V (.ite ref c t f) ↔ V c ∧ V t ∧ V f
  shallow : ∀ e e', V e' → e.equalShallowly e' = true → V e

/-- The operands of the call have the property, and it divides only if `D`. -/
def Call.On (D : Prop) (V : Expr → Prop) : Call → Prop
  | bool _ | constant _ _ => True
  | read off => V (.read off)
  | concat l r | compare _ l r => V l ∧ V r
  | extract e _ _ | ext _ e _ | unary _ e => V e
  | binary k l r => (k.isDivision = true → D) ∧ V l ∧ V r
  | ite c t f => V c ∧ V t ∧ V f

variable {D : Prop} {V : Expr → Prop} {ok : MethodCall → Prop}

namespace Build

variable {α : Type} {b : ExprBuilder} {c : Call}

@[simp] theorem keeps_ret {P : α → Prop} {a : α} : (.ret a : Build α).Keeps ok V P ↔ P a :=
  Iff.rfl

@[simp] theorem keeps_stop {P : α → Prop} : (.stop : Build α).Keeps ok V P :=
  trivial

@[simp] theorem keeps_create {P : Expr → Prop} :
    (b.create c).Keeps ok V P ↔ ok ⟨b, c⟩ ∧ ∀ r, V r → P r :=
  Iff.rfl

@[simp] theorem keeps_create_bind {P : α → Prop} {f : Expr → Build α} :
    ((b.create c).bind f).Keeps ok V P ↔ ok ⟨b, c⟩ ∧ ∀ r, V r → (f r).Keeps ok V P :=
  Iff.rfl

/-- Handing a call on. -/
theorem keeps_handOn (h : ok ⟨b, c⟩) : (b.create c).Keeps ok V V :=
  ⟨h, fun _ hr => hr⟩

end Build

open Build

/-- Arithmetic that is no division. -/
theorem on_binary {k : BinaryKind} {l r : Expr} (hk : k.isDivision = false) (hl : V l)
    (hr : V r) : (Call.binary k l r).On D V :=
  ⟨fun h => absurd (hk.symm.trans h) Bool.false_ne_true, hl, hr⟩

/-! ### The lower layers -/

theorem makeShared_keeps {c : Call} (h : ∀ ref, V (c.node ref)) :
    (Build.makeShared c).Keeps ok V V := by
  unfold Build.makeShared
  split
  · exact fun w => h w.nextRef
  · trivial

/-- The nodes are made at the bottom. -/
theorem base_keeps {c : Call} (hon : c.On D V) (h : ∀ ref, V (c.node ref)) :
    (BaseExprBuilder.body c).Keeps ok V V := by
  cases c with
  | read off => exact hon
  | extract e i b =>
      simp only [BaseExprBuilder.body]
      split
      · exact hon
      · exact makeShared_keeps h
  | _ => exact makeShared_keeps h

variable (hV : Parts D V)

include hV in
theorem cache_keeps (σ : Session) {next : ExprBuilder} {c : Call} (hnext : ok ⟨next, c⟩) :
    (CacheExprBuilder.body σ next c).Keeps ok V V := by
  have hfind : (next.create c >>= CacheExprBuilder.findOrInsert σ).Keeps ok V V := by
    refine keeps_create_bind.2 ⟨hnext, fun e he w => ?_⟩
    show Program.Keeps _ _ _ (CacheExprBuilder.handOut σ e (w.cache.find (σ.expired w.tick) e))
    cases hf : w.cache.find (σ.expired w.tick) e with
    | none => exact fun w => he
    | some x =>
        have hx := List.find?_some hf
        simp only [Bool.and_eq_true] at hx
        exact hV.shallow x e he hx.2
  cases c with
  | bool | constant | read => exact keeps_handOn hnext
  | _ => exact hfind

section Rewriting

variable {this next : ExprBuilder} {l r e : Expr}

namespace ConstantFoldingExprBuilder

variable (hconstant : ∀ n v, ok ⟨this, .constant n v⟩) (hbool : ∀ b, ok ⟨this, .bool b⟩)

include hconstant in
theorem createArith_keeps {k : BinaryKind} (hnext : ok ⟨next, .binary k l r⟩) :
    (createArith this next k l r).Keeps ok V V := by
  unfold createArith
  split
  next =>
      split
      · split <;> simp [hconstant]
      · trivial
  next => exact keeps_handOn hnext

include hbool in
theorem createCompare_keeps {k : CompareKind} (hnext : ok ⟨next, .compare k l r⟩) :
    (createCompare this next k l r).Keeps ok V V := by
  unfold createCompare
  split
  next =>
      split
      · exact keeps_handOn (hbool _)
      · trivial
  next => split <;> exact keeps_handOn (by first | exact hbool _ | exact hnext)
  next => exact keeps_handOn hnext

include hconstant hbool in
/-- Constants are folded, and the other calls handed on: an extract only of something
that is no constant. -/
theorem body_keeps {c : Call} (hon : c.On D V)
    (hnext : (∀ v i b, c = .extract v i b → v.isConstant = false) → ok ⟨next, c⟩) :
    (body this next c).Keeps ok V V := by
  have hother : (∀ v i b, c ≠ .extract v i b) → ok ⟨next, c⟩ := fun h =>
    hnext fun v i b hc => absurd hc (h v i b)
  cases c with
  | concat l r =>
      simp only [body, createConcat]
      split
      · exact keeps_handOn (hconstant _ _)
      · exact keeps_handOn (hother nofun)
  | extract e i b =>
      simp only [body, createExtract]
      split
      next => exact keeps_handOn (hconstant _ _)
      next hk =>
          refine keeps_handOn (hnext fun v i' b' hc => ?_)
          cases hc
          cases e with
          | constant ref n v => exact absurd rfl (hk ref n v)
          | _ => rfl
  | ext k e b =>
      simp only [body, createExt]
      split
      · exact keeps_handOn (hconstant _ _)
      · exact keeps_handOn (hother nofun)
  | unary k e =>
      simp only [body, createUnary]
      split
      · exact keeps_handOn (hconstant _ _)
      · exact keeps_handOn (hconstant _ _)
      · exact keeps_handOn (hbool _)
      · exact keeps_handOn (hother nofun)
  | binary k l r =>
      have hnext := hother nofun
      cases k with
      | land =>
          simp only [body, createLAnd]
          split
          · exact keeps_handOn (hbool _)
          · exact keeps_handOn hnext
      | lor =>
          simp only [body, createLOr]
          split
          · exact keeps_handOn (hbool _)
          · exact keeps_handOn hnext
      | _ => exact createArith_keeps hconstant hnext
  | compare k l r => exact createCompare_keeps hbool (hother nofun)
  | ite c t f =>
      simp only [body, createIte]
      split
      next ref b =>
          cases b
          · exact hon.2.2
          · exact hon.2.1
      next => exact keeps_handOn (hother nofun)
  | bool b => exact keeps_handOn (hother nofun)
  | constant n v => exact keeps_handOn (hother nofun)
  | read off => exact keeps_handOn (hother nofun)

end ConstantFoldingExprBuilder

variable (hthis : ∀ c : Call, c.On D V → ok ⟨this, c⟩)

namespace CommonSimplifyExprBuilder

variable (hnext : ∀ c : Call, (∀ v i b, c ≠ .extract v i b) → c.On D V → ok ⟨next, c⟩)
variable (hcut : ∀ v i b, V v → v.isConstant = true ∨ v.Cut i b → ok ⟨next, .extract v i b⟩)

section Concat

include hV hthis hnext

theorem createConcatExt_keeps (hl : V l) (hr : V r) :
    (createConcatExt this next l r).Keeps ok V V := by
  have hwhole : (next.createConcat l r).Keeps ok V V := keeps_handOn (hnext _ nofun ⟨hl, hr⟩)
  unfold createConcatExt
  split
  next =>
      split
      · exact keeps_handOn (hthis _ (hV.extract _ _ _ _ hl))
      · exact hwhole
  next => exact hwhole

theorem createConcat_keeps (hl : V l) (hr : V r) :
    (createConcat this next l r).Keeps ok V V := by
  unfold createConcat
  split
  next =>
      split
      · exact keeps_handOn (hthis _ (hV.extract _ _ _ _ hl))
      · exact createConcatExt_keeps hV hthis hnext hl hr
  next => exact createConcatExt_keeps hV hthis hnext hl hr

end Concat

include hcut in
theorem createExtractWhole_keeps (he : V e) {i b : Nat} (h : e.isConstant = true ∨ e.Cut i b) :
    (createExtractWhole next e i b).Keeps ok V V := by
  unfold createExtractWhole
  split
  · exact he
  · exact keeps_handOn (hcut e i b he h)

include hV hthis hcut in
theorem createExtract_keeps (he : V e) (i b : Nat) :
    (createExtract this next e i b).Keeps ok V V := by
  unfold createExtract
  split
  next ref l r =>
      obtain ⟨hl, hr⟩ := (hV.concat ref l r).1 he
      split
      · exact keeps_handOn (hthis _ hl)
      split
      · exact keeps_handOn (hthis _ hr)
      split
      · exact keeps_create_bind.2 ⟨hthis _ hl, fun x hx => keeps_create_bind.2
          ⟨hthis _ hr, fun y hy => keeps_handOn (hthis _ ⟨hx, hy⟩)⟩⟩
      next hi hib hk =>
          refine createExtractWhole_keeps hcut he (.inr ⟨by omega, by omega, by simpa using hk⟩)
  next ref k x w =>
      have hx := (hV.ext ref k x w).1 he
      split
      · exact keeps_handOn (hthis _ hx)
      split
      · exact keeps_handOn (hthis _ trivial)
      next hib hz =>
          refine createExtractWhole_keeps hcut he (.inr ⟨by omega, fun hk => ?_⟩)
          exact Nat.lt_of_not_le fun hle => hz ⟨hk, hle⟩
  next ref x j w => exact keeps_handOn (hthis _ (hV.extract ref x j w he))
  next hc hx hy =>
      refine createExtractWhole_keeps hcut he ?_
      cases e with
      | concat ref l r => exact absurd rfl (hc ref l r)
      | ext ref k x w => exact absurd rfl (hx ref k x w)
      | extract ref x j w => exact absurd rfl (hy ref x j w)
      | constant => exact .inl rfl
      | _ => exact .inr trivial

/-- The three rules of the bitwise methods give one of the operands. -/
theorem simplify_eq {simplify : Expr → Expr → Option Expr}
    (hs : simplify = simplifyAnd ∨ simplify = simplifyOr ∨ simplify = simplifyXor) {x : Expr}
    (hx : simplify l r = some x) : x = l ∨ x = r := by
  obtain rfl | rfl | rfl := hs
  · simp only [simplifyAnd] at hx
    grind
  · simp only [simplifyOr] at hx
    grind
  · simp only [simplifyXor] at hx
    grind

section Arithmetic

include hV hthis hnext

theorem createBitwise_keeps {k : BinaryKind} (hk : k.isDivision = false)
    {simplify : Expr → Expr → Option Expr}
    (hs : simplify = simplifyAnd ∨ simplify = simplifyOr ∨ simplify = simplifyXor)
    (hl : V l) (hr : V r) : (createBitwise this next k simplify l r).Keeps ok V V := by
  have hwhole : (next.create (.binary k l r)).Keeps ok V V :=
    keeps_handOn (hnext _ nofun (on_binary hk hl hr))
  unfold createBitwise
  split
  next x hx => obtain rfl | rfl := simplify_eq hs hx <;> assumption
  next =>
      split
      next ref rl rr _ =>
          obtain ⟨hrl, hrr⟩ := (hV.concat ref rl rr).1 hr
          refine keeps_create_bind.2 ⟨hthis _ hl, fun x hx => ?_⟩
          split
          next y hy =>
              have hy : V y := by obtain rfl | rfl := simplify_eq hs hy <;> assumption
              exact keeps_create_bind.2 ⟨hthis _ hl, fun z hz => keeps_create_bind.2
                ⟨hthis _ (on_binary hk hz hrr), fun v hv => keeps_handOn (hthis _ ⟨hy, hv⟩)⟩⟩
          next => exact hwhole
      next => exact hwhole

omit hV in
theorem createShl_keeps (hl : V l) (hr : V r) : (createShl this next l r).Keeps ok V V := by
  have hwhole : (next.create (.binary .shl l r)).Keeps ok V V :=
    keeps_handOn (hnext _ nofun (on_binary rfl hl hr))
  unfold createShl
  split
  · exact hl
  split
  next =>
      simp only
      split
      · exact hl
      split
      · exact keeps_handOn (hthis _ trivial)
      split
      · exact keeps_create_bind.2 ⟨hthis _ trivial, fun z hz => keeps_create_bind.2
          ⟨hthis _ hl, fun x hx => keeps_handOn (hthis _ ⟨hx, hz⟩)⟩⟩
      · exact hwhole
  next => exact hwhole

omit hV in
theorem createLShr_keeps (hl : V l) (hr : V r) : (createLShr this next l r).Keeps ok V V := by
  have hwhole : (next.create (.binary .lshr l r)).Keeps ok V V :=
    keeps_handOn (hnext _ nofun (on_binary rfl hl hr))
  unfold createLShr
  split
  · exact hl
  split
  next =>
      simp only
      split
      · exact hl
      split
      · exact keeps_handOn (hthis _ trivial)
      split
      · exact keeps_create_bind.2 ⟨hthis _ trivial, fun z hz => keeps_create_bind.2
          ⟨hthis _ hl, fun x hx => keeps_handOn (hthis _ ⟨hz, hx⟩)⟩⟩
      · exact hwhole
  next => exact hwhole

end Arithmetic

include hV hthis hnext hcut in
theorem body_keeps {c : Call} (h : c.On D V) : (body this next c).Keeps ok V V := by
  cases c with
  | concat l r => exact createConcat_keeps hV hthis hnext h.1 h.2
  | extract e i b => exact createExtract_keeps hV hthis hcut h i b
  | ext k e b =>
      cases k with
      | zext =>
          simp only [body, createZExt]
          split
          · exact keeps_handOn (hthis _ h)
          split
          · exact h
          · exact keeps_handOn (hnext _ nofun h)
      | sext => exact keeps_handOn (hnext _ nofun h)
  | binary k l r =>
      obtain ⟨-, hl, hr⟩ := id h
      have hwhole : (next.create (.binary k l r)).Keeps ok V V :=
        keeps_handOn (hnext _ nofun h)
      cases k with
      | add =>
          simp only [body, createAdd]
          split
          · exact hr
          · exact hwhole
      | mul =>
          simp only [body, createMul]
          split
          · exact hl
          split
          · exact hr
          · exact hwhole
      | and => exact createBitwise_keeps hV hthis hnext rfl (.inl rfl) hl hr
      | or => exact createBitwise_keeps hV hthis hnext rfl (.inr (.inl rfl)) hl hr
      | xor => exact createBitwise_keeps hV hthis hnext rfl (.inr (.inr rfl)) hl hr
      | shl => exact createShl_keeps hthis hnext hl hr
      | lshr => exact createLShr_keeps hthis hnext hl hr
      | ashr =>
          simp only [body, createAShr]
          split
          · exact hl
          · exact hwhole
      | _ => exact hwhole
  | compare k l r =>
      have hwhole : (next.create (.compare k l r)).Keeps ok V V :=
        keeps_handOn (hnext _ nofun h)
      cases k with
      | equal =>
          simp only [body, createEqual]
          split
          next =>
              split
              · exact h.2
              · exact keeps_handOn (hthis _ h.2)
          next => exact hwhole
      | _ => exact hwhole
  | _ => exact keeps_handOn (hnext _ nofun h)

end CommonSimplifyExprBuilder

namespace SymbolicExprBuilder

variable (hnext : ∀ c : Call, c.On D V → ok ⟨next, c⟩)

include hV hthis hnext in
theorem createConcat_keeps (hl : V l) (hr : V r) :
    (createConcat this next l r).Keeps ok V V := by
  unfold createConcat
  have hwhole : (next.createConcat l r).Keeps ok V V := keeps_handOn (hnext _ ⟨hl, hr⟩)
  split
  next =>
      split
      · simp_all [Call.On, hV.concat]
      · exact hwhole
  next => simp_all [Call.On, hV.concat]
  next => exact hwhole

include hthis in
theorem narrow_keeps {k : BinaryKind} (hk : k.isDivision = true → D)
    (hl : V l) (hr : V r) (i b : Nat) :
    (evaluateInDifferentType.narrow this i b k l r).Keeps ok V V := by
  unfold evaluateInDifferentType.narrow
  simp_all [Call.On]

include hV hthis hnext in
theorem createExtract_keeps (he : V e) (i b : Nat) :
    (createExtract this next e i b).Keeps ok V V := by
  have hwhole : (next.createExtract e i b).Keeps ok V V := keeps_handOn (hnext _ he)
  unfold createExtract
  split
  next =>
      unfold evaluateInDifferentType
      split
      next p hp =>
          split at hp <;> cases hp <;>
            obtain ⟨hk, hl, hr⟩ := (hV.binary ..).1 he <;> exact narrow_keeps hthis hk hl hr i b
      next => exact hwhole
  next => exact hwhole

/-- The pieces are cut from the two operands. -/
theorem mem_exclusivePieces {p : Piece} {fuel i : Nat} (h : p ∈ exclusivePieces l r fuel i) :
    p.1 = l ∨ p.1 = r := by
  induction fuel generalizing i with
  | zero => cases h
  | succ fuel ih =>
      simp only [exclusivePieces] at h
      split at h
      · simp only [List.mem_append] at h
        obtain (h | h) | h := h
        · split at h
          · cases h
          · exact .inr (by rw [List.mem_singleton.1 h])
        · split at h
          · cases h
          · exact .inl (by rw [List.mem_singleton.1 h])
        · exact ih h
      · cases h

include hthis in
theorem extractPieces_keeps {ps : List Piece} {exprs : List Expr}
    (hp : ∀ p ∈ ps, V p.1) (he : ∀ x ∈ exprs, V x) :
    (extractPieces this ps exprs).Keeps ok V (fun xs => ∀ x ∈ xs, V x) := by
  induction ps generalizing exprs with
  | nil => exact he
  | cons p ps ih =>
      refine keeps_create_bind.2 ⟨hthis _ (hp p List.mem_cons_self), fun x hx => ih ?_ ?_⟩
      · exact fun q hq => hp q (List.mem_cons_of_mem p hq)
      · exact List.forall_mem_cons.2 ⟨hx, he⟩

include hthis in
theorem createConcatList_keeps {exprs : List Expr} (he : V e)
    (h : ∀ x ∈ exprs, V x) :
    (createConcatList this e exprs).Keeps ok V V := by
  induction exprs generalizing e with
  | nil => exact he
  | cons x exprs ih =>
      obtain ⟨hx, h⟩ := List.forall_mem_cons.1 h
      exact keeps_create_bind.2 ⟨hthis _ ⟨he, hx⟩, fun y hy => ih hy h⟩

include hthis in
theorem simplifyExclusiveExpr_keeps (hl : V l) (hr : V r)
    {p : Build Expr} (hp : simplifyExclusiveExpr this l r = some p) :
    p.Keeps ok V V := by
  unfold simplifyExclusiveExpr at hp
  split at hp
  · cases hp
    have hnil : ∀ x ∈ ([] : List Expr), V x := fun _ h => nomatch h
    refine (extractPieces_keeps hthis (fun p hp => ?_) hnil).bind fun exprs hexprs => ?_
    · obtain h | h := mem_exclusivePieces hp <;> rw [h] <;> assumption
    · split
      next => trivial
      next =>
          obtain ⟨he, hexprs⟩ := List.forall_mem_cons.1 hexprs
          exact createConcatList_keeps hthis he hexprs
  · cases hp

include hV hthis hnext in
theorem createAddConst_keeps (hl : V l) (hr : V r) :
    (createAddConst this next l r).Keeps ok V V := by
  have hwhole : (next.create (.binary .add l r)).Keeps ok V V :=
    keeps_handOn (hnext _ (on_binary rfl hl hr))
  unfold createAddConst
  split
  next => split <;> (try split) <;> simp_all [Call.On, hV.binary, BinaryKind.isDivision]
  next => split <;> (try split) <;> simp_all [Call.On, hV.binary, BinaryKind.isDivision]
  next => exact hwhole

include hV hthis hnext in
theorem createAddRight_keeps (hl : V l) (hr : V r) :
    (createAddRight this next l r).Keeps ok V V := by
  have hwhole : (next.create (.binary .add l r)).Keeps ok V V :=
    keeps_handOn (hnext _ (on_binary rfl hl hr))
  unfold createAddRight
  split
  next => split <;> (try split) <;> simp_all [Call.On, hV.binary, BinaryKind.isDivision]
  next => split <;> (try split) <;> simp_all [Call.On, hV.binary, BinaryKind.isDivision]
  next => exact hwhole

include hV hthis hnext in
theorem createAdd_keeps (hl : V l) (hr : V r) :
    (createAdd this next l r).Keeps ok V V := by
  have hwhole : (next.create (.binary .add l r)).Keeps ok V V :=
    keeps_handOn (hnext _ (on_binary rfl hl hr))
  unfold createAdd
  split
  next p hp => exact simplifyExclusiveExpr_keeps hthis hl hr hp
  split
  · exact hwhole
  split
  · exact createAddConst_keeps hV hthis hnext hl hr
  unfold createAddNonConst
  split
  · simp_all [Call.On, BinaryKind.isDivision]
  split
  next => exact createAddRight_keeps hV hthis hnext hr hl
  next => exact createAddRight_keeps hV hthis hnext hr hl
  next => exact createAddRight_keeps hV hthis hnext hl hr

include hV hthis hnext in
theorem createSubConst_keeps (hl : V l) (hr : V r) :
    (createSubConst this next l r).Keeps ok V V := by
  have hwhole : (next.create (.binary .sub l r)).Keeps ok V V :=
    keeps_handOn (hnext _ (on_binary rfl hl hr))
  unfold createSubConst
  split
  next => split <;> (try split) <;> simp_all [Call.On, hV.binary, BinaryKind.isDivision]
  next => split <;> (try split) <;> simp_all [Call.On, hV.binary, BinaryKind.isDivision]
  next => exact hwhole

include hV hthis hnext in
theorem createSubRight_keeps (hl : V l) (hr : V r) :
    (createSubRight this next l r).Keeps ok V V := by
  have hwhole : (next.create (.binary .sub l r)).Keeps ok V V :=
    keeps_handOn (hnext _ (on_binary rfl hl hr))
  unfold createSubRight
  split
  next => split <;> (try split) <;> simp_all [Call.On, hV.binary, BinaryKind.isDivision]
  next => split <;> (try split) <;> simp_all [Call.On, hV.binary, BinaryKind.isDivision]
  next => exact hwhole

include hV hthis hnext in
theorem createSub_keeps (hl : V l) (hr : V r) :
    (createSub this next l r).Keeps ok V V := by
  have hright := createSubRight_keeps hV hthis hnext hl hr
  unfold createSub
  split
  · exact keeps_handOn (hnext _ (on_binary rfl hl hr))
  split
  · exact createSubConst_keeps hV hthis hnext hl hr
  unfold createSubNonConst
  split
  · exact keeps_handOn (hthis _ trivial)
  split
  next => split <;> simp_all [Call.On, hV.binary, BinaryKind.isDivision]
  next => split <;> simp_all [Call.On, hV.binary, BinaryKind.isDivision]
  next => exact hright

include hV hthis hnext in
theorem createMul_keeps (hl : V l) (hr : V r) :
    (createMul this next l r).Keeps ok V V := by
  have hwhole : (next.create (.binary .mul l r)).Keeps ok V V :=
    keeps_handOn (hnext _ (on_binary rfl hl hr))
  unfold createMul createMulConst
  split
  · split
    next => split <;> simp_all [Call.On, hV.binary, BinaryKind.isDivision]
    next => split <;> simp_all [Call.On, hV.binary, BinaryKind.isDivision]
    next => exact hwhole
  · exact hwhole

include hV hthis hnext in
theorem createSDiv_keeps (h : (Call.binary .sdiv l r).On D V) :
    (createSDiv this next l r).Keeps ok V V := by
  have hwhole := keeps_handOn (V := V) (hnext _ h)
  obtain ⟨hd, hl, hr⟩ := h
  have hnested : (createSDivNested this next l r).Keeps ok V V := by
    unfold createSDivNested
    split
    next => split <;> simp_all [Call.On, hV.binary, BinaryKind.isDivision]
    next => exact hwhole
  unfold createSDiv createSDivConst
  split
  next =>
      split
      · exact hwhole
      split
      · exact keeps_handOn (hthis _ hl)
      split
      next => split <;> simp_all [Call.On, hV.ext, BinaryKind.isDivision]
      next => exact hnested
  next => exact hwhole

include hV hthis hnext in
theorem createUDiv_keeps (h : (Call.binary .udiv l r).On D V) :
    (createUDiv this next l r).Keeps ok V V := by
  have hwhole := keeps_handOn (V := V) (hnext _ h)
  obtain ⟨hd, hl, hr⟩ := h
  have hnested : (createUDivNested this next l r).Keeps ok V V := by
    unfold createUDivNested
    split
    next => split <;> simp_all [Call.On, hV.binary, BinaryKind.isDivision]
    next => exact hwhole
  unfold createUDiv createUDivConst
  split
  next =>
      split
      · exact hwhole
      split
      next => split <;> simp_all [Call.On, hV.concat, BinaryKind.isDivision]
      next => exact hnested
  next => exact hwhole

include hV hthis hnext in
theorem createAnd_keeps (hl : V l) (hr : V r) :
    (createAnd this next l r).Keeps ok V V := by
  have hwhole : (next.create (.binary .and l r)).Keeps ok V V :=
    keeps_handOn (hnext _ (on_binary rfl hl hr))
  unfold createAnd createAndNonConst
  split
  · exact hwhole
  split
  · exact hwhole
  split
  · exact hl
  split
  next => split <;> simp_all [Call.On, hV.concat, BinaryKind.isDivision]
  next => exact hwhole

include hV hthis hnext in
theorem createOr_keeps (hl : V l) (hr : V r) :
    (createOr this next l r).Keeps ok V V := by
  have hwhole : (next.create (.binary .or l r)).Keeps ok V V :=
    keeps_handOn (hnext _ (on_binary rfl hl hr))
  unfold createOr
  split
  next p hp => exact simplifyExclusiveExpr_keeps hthis hl hr hp
  split
  · exact hwhole
  split
  · unfold createOrConst
    split
    next => simp_all [Call.On, hV.concat, BinaryKind.isDivision]
    next => exact hwhole
  unfold createOrNonConst
  split
  · exact hl
  split
  next => split <;> simp_all [Call.On, hV.concat, BinaryKind.isDivision]
  next => exact hwhole

include hV hthis hnext in
theorem createIte_keeps {c t f : Expr} (h : (Call.ite c t f).On D V) :
    (createIte this next c t f).Keeps ok V V := by
  obtain ⟨hc, ht, hf⟩ := id h
  unfold createIte
  split
  next =>
      split
      · exact ht
      · exact hf
  next => exact keeps_handOn (hthis _ ⟨(hV.unary ..).1 hc, hf, ht⟩)
  next => exact keeps_handOn (hnext _ h)

include hV hthis hnext in
theorem body_keeps {c : Call} (h : c.On D V) :
    (body this next c).Keeps ok V V := by
  cases c with
  | concat l r => exact createConcat_keeps hV hthis hnext h.1 h.2
  | extract e i b => exact createExtract_keeps hV hthis hnext h i b
  | unary k e =>
      cases k with
      | lnot =>
          simp only [body, createLNot]
          split
          next => exact keeps_handOn (hthis _ trivial)
          next => exact (hV.unary ..).1 h
          next => exact keeps_handOn (hnext _ h)
      | _ => exact keeps_handOn (hnext _ h)
  | binary k l r =>
      obtain ⟨-, hl, hr⟩ := id h
      cases k with
      | add => exact createAdd_keeps hV hthis hnext hl hr
      | sub => exact createSub_keeps hV hthis hnext hl hr
      | mul => exact createMul_keeps hV hthis hnext hl hr
      | udiv => exact createUDiv_keeps hV hthis hnext h
      | sdiv => exact createSDiv_keeps hV hthis hnext h
      | and => exact createAnd_keeps hV hthis hnext hl hr
      | or => exact createOr_keeps hV hthis hnext hl hr
      | xor =>
          simp only [body, createXor]
          split
          · exact keeps_handOn (hthis _ trivial)
          · exact keeps_handOn (hnext _ h)
      | lor =>
          simp only [body, createLOr]
          split
          next => split <;> simp_all [Call.On]
          next => split <;> simp_all [Call.On]
          next => exact keeps_handOn (hnext _ h)
      | land =>
          simp only [body, createLAnd]
          split
          next => split <;> simp_all [Call.On]
          next => split <;> simp_all [Call.On]
          next => exact keeps_handOn (hnext _ h)
      | _ => exact keeps_handOn (hnext _ h)
  | compare k l r =>
      cases k with
      | equal =>
          simp only [body, createEqual]
          split
          · exact keeps_handOn (hthis _ trivial)
          · exact keeps_handOn (hnext _ h)
      | distinct => exact keeps_create_bind.2 ⟨hthis _ h, fun x hx => keeps_handOn (hthis _ hx)⟩
      | _ => exact keeps_handOn (hnext _ h)
  | ite c t f => exact createIte_keeps hV hthis hnext h
  | _ => exact keeps_handOn (hnext _ h)

end SymbolicExprBuilder

namespace CommutativeExprBuilder

variable (hnext : ∀ c : Call, c.On D V → ok ⟨next, c⟩)

include hthis hnext in
theorem body_keeps {c : Call} (h : c.On D V) :
    (body this next c).Keeps ok V V := by
  cases c with
  | binary k l r =>
      obtain ⟨hk, hl, hr⟩ := id h
      have hswap : (createCommutative this next k l r).Keeps ok V V := by
        unfold createCommutative
        split
        · exact keeps_handOn (hthis _ ⟨hk, hr, hl⟩)
        · exact keeps_handOn (hnext _ h)
      cases k with
      | sub =>
          simp only [body, createSub]
          split
          · simp_all [Call.On, BinaryKind.isDivision]
          · exact keeps_handOn (hnext _ h)
      | add | mul | and | or | xor | lor | land => exact hswap
      | _ => exact keeps_handOn (hnext _ h)
  | compare k l r =>
      simp only [body, createCompare]
      split
      · exact keeps_handOn (hthis _ ⟨h.2, h.1⟩)
      · exact keeps_handOn (hnext _ h)
  | _ => exact keeps_handOn (hnext _ h)

end CommutativeExprBuilder

end Rewriting

end Qsym
