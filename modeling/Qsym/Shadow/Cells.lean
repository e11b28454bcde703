import Qsym.Builder.Sound
import Qsym.Builder.Trimmed
import Qsym.Bytes.Map

/-!
# Qsym.Shadow.Cells

Shadow memory and the shadow registers hold one expression for each byte and treat it
in the same way. `Cells` is what they have in common: a way to look at a cell and to
assign to one. The methods below are the text both classes have (`…FromMem` and
`…FromRegAddr`), with the bytes of the machine as an argument.

`Shadows` is the refinement: cells stand for a `Bytes.Map`, a little-endian map of
input-dependent bytes. A cell may also be empty although a byte was written there, as
long as that byte does not depend on the input; this is what a read leaves behind when
it clears what turned out concrete.
-/

namespace Qsym

open Procedure Qsym.Expr

/-- Cells with addresses `A` inside a state `S`. -/
structure Cells (S A : Type) where
  /-- `*getExprPtr(addr)` -/
  peek : S → A → Option Expr
  /-- `*getExprPtr(addr) = e`, which faults where nothing may be written. -/
  poke : S → A → Option Expr → Option S
  peek_poke : ∀ {s a x s'}, poke s a x = some s' → peek s' a = x
  peek_poke_ne : ∀ {s a x s' a'}, poke s a x = some s' → a' ≠ a → peek s' a' = peek s a'
  /-- What holds an expression may be written. -/
  poke_isSome : ∀ {s a} x, (peek s a).isSome = true → (poke s a x).isSome = true

/-- `ExprBuilder::createConcat` of a list -/
def ExprBuilder.createConcatAll (b : ExprBuilder) (exprs : List Expr) : Build Expr :=
  match exprs with
  | [] => .stop
  | e :: exprs => SymbolicExprBuilder.createConcatList b e exprs

namespace Cells

variable {S A : Type} (C : Cells S A) (b : ExprBuilder)

/-! ### The methods -/

/-- The assignment to a cell. -/
def assign (s : S) (a : A) (x : Option Expr) : Build S :=
  match C.poke s a x with
  | some s' => .ret s'
  | none => .stop

/-- `clearExprFrom…(addr)` -/
def clearExpr (s : S) (a : A) : Build S :=
  match C.peek s a with
  | some _ => C.assign s a none
  | none => .ret s

/-- `clearExprFrom…(addr, size)`, on the addresses from `addr` on. -/
def clearExprs (s : S) : List A → Build S
  | [] => .ret s
  | a :: as => do
      let s' ← C.clearExpr s a
      clearExprs s' as

/-- `setExprTo…(addr, e)` -/
def setExpr (s : S) (a : A) (e : Option Expr) : Build S := do
  let s' ← C.clearExpr s a
  match e with
  | some e => C.assign s' a (some e)
  | none => .ret s'

/-- The loop of `setExprTo…(addr, size, e)` from byte `i` on. -/
def setBytes (e : Expr) (s : S) (i : Nat) : List A → Build S
  | [] => .ret s
  | a :: as => do
      let x ← b.createExtract e (i * 8) 8
      let s' ← C.setExpr s a (some x)
      setBytes e s' (i + 1) as

/-- `setExprTo…(addr, size, e)` -/
def setExprs (s : S) (as : List A) (e : Option Expr) : Build S :=
  match e with
  | some e => C.setBytes b e s 0 as
  | none => C.clearExprs s as

/-- `isSymbolic…(addr, size)` -/
def isSymbolic (s : S) (as : List A) : Bool :=
  as.any fun a => (C.peek s a).isSome

/-- The loop of `getExprFrom…(addr, size)`: the bytes in ascending order, each with
what the machine holds there, are pushed to the front. -/
def pushBytes : List (Option Expr × BitVec 8) → List Expr → Build (List Expr)
  | [], exprs => .ret exprs
  | (some e, _) :: cells, exprs => pushBytes cells (e :: exprs)
  | (none, v) :: cells, exprs => do
      let e ← b.create (.constant 8 v)
      pushBytes cells (e :: exprs)

/-- `getExprFrom…(addr, size)` -/
def getExprs (s : S) (machine : A → BitVec 8) (as : List A) : Build (Option Expr × S) :=
  if C.isSymbolic s as then do
    let exprs ← pushBytes b (as.map fun a => (C.peek s a, machine a)) []
    let e ← b.createConcatAll exprs
    -- if it is concrete, then do not return it
    if e.isConcrete then do
      let s' ← C.clearExprs s as
      .ret (none, s')
    else .ret (some e, s)
  else .ret (none, s)

end Cells

/-! ### Composed expressions -/

/-- `e` is an expression of `k` bytes with the value `N`, as the builder makes it. -/
structure Composed (k : Nat) (N : Input → Nat) (e : Expr) : Prop where
  trimmed : e.Trimmed
  isBV : e.IsBV (k * 8)
  value : ∀ ρ, e.value ρ = N ρ

section Composed

variable {σ : Session} {ok : MethodCall → Prop} {k : Nat} {N f : Input → Nat} {e l r : Expr}

theorem Composed.of_agrees {c : Call} (h : Agrees (fun _ => True) e c.plain) (ht : e.Trimmed)
    (hb : c.plain.IsBV (k * 8)) (hv : ∀ ρ, c.plain.value ρ = N ρ) : Composed k N e :=
  ⟨ht, h.isBV hb, fun ρ => (h.value ρ trivial).trans (hv ρ)⟩

theorem constant_composed (v : BitVec 8) :
    Builds σ ok (SymbolicExprBuilder.chain.create (.constant 8 v))
      (fun x => Composed 1 (fun _ => v.toNat) x ∧ x.getDeps = ∅) := by
  have hc : (Call.constant 8 v).plain.IsBV (1 * 8) := isBV_constant (Nat.succ_pos 7) 0 v
  have hstr : Builds σ ok _ _ :=
    (chain_structural σ (fun _ => True) rfl hc.wellSorted).of_true
  have hon : (Call.constant 8 v).On True Expr.Trimmed := trivial
  refine (hstr.yields ((chain_trimmed σ hon).and yields_getDeps)).mono ?_
  rintro x ⟨ha, ht, hd⟩
  exact ⟨.of_agrees ha ht hc fun _ => rfl, Finset.subset_empty.1 hd⟩

theorem extract_composed {n : Nat} (he : e.IsBV n) (ht : e.Trimmed) {i : Nat}
    (hi : i * 8 + 8 ≤ n) :
    Builds σ (FoldsExactly fun _ => True) (SymbolicExprBuilder.chain.createExtract e (i * 8) 8)
      (Composed 1 fun ρ => Bytes.byte (e.value ρ) i) := by
  have hc : (Call.extract e (i * 8) 8).plain.IsBV (1 * 8) := isBV_extract he (by omega) hi 0
  have hmeets := chain_sound σ (fun _ => True) (.extract e (i * 8) 8) rfl hc.wellSorted
  exact (hmeets.yields (chain_trimmed σ ht)).mono fun x ⟨ha, hx⟩ =>
    .of_agrees ha hx hc fun _ => rfl

/-- The next byte below. -/
theorem concat_composed (hl : Composed k N l) (hr : Composed 1 f r) :
    Builds σ ok (SymbolicExprBuilder.chain.createConcat l r) (fun x =>
      Composed (k + 1) (fun ρ => N ρ * 256 + f ρ) x ∧ x.getDeps = l.getDeps ∪ r.getDeps) := by
  have hc : (Call.concat l r).plain.IsBV ((k + 1) * 8) := by
    rw [Nat.add_mul]
    exact isBV_concat hl.isBV hr.isBV 0
  have hstr : Builds σ ok _ _ :=
    (chain_structural σ (fun _ => True) rfl hc.wellSorted).of_true
  have hon : (Call.concat l r).On True Expr.Trimmed := ⟨hl.trimmed, hr.trimmed⟩
  refine (hstr.yields ((chain_trimmed σ hon).and
    (concat_getDeps hl.isBV.wellSorted hl.trimmed hr.trimmed))).mono ?_
  rintro x ⟨ha, ht, hd⟩
  refine ⟨.of_agrees ha ht hc fun ρ => ?_, hd⟩
  show l.value ρ * 2 ^ r.bits + r.value ρ = _
  rw [hl.value, hr.value, hr.isBV.bits]
  rfl

/-- The rest of the bytes, from the highest down. -/
theorem createConcatList_composed {fs : List (Input → Nat)} {ys : List Expr}
    (he : Composed k N e) (hys : List.Forall₂ (Composed 1) fs ys) :
    Builds σ ok (SymbolicExprBuilder.createConcatList SymbolicExprBuilder.chain e ys) (fun x =>
      Composed (k + ys.length) (fun ρ => fs.foldl (fun n f => n * 256 + f ρ) (N ρ)) x ∧
        (x.getDeps = ∅ ↔ e.getDeps = ∅ ∧ ∀ y ∈ ys, y.getDeps = ∅)) := by
  induction hys generalizing k N e with
  | nil => exact .ret ⟨he, by simp⟩
  | @cons f y fs ys hy _ ih =>
      refine Total.bind (concat_composed he hy) fun x ⟨hx, hd⟩ => (ih hx).mono fun z ⟨hz, hdz⟩ => ?_
      rw [List.length_cons, Nat.add_comm ys.length, ← Nat.add_assoc]
      refine ⟨hz, hdz.trans ?_⟩
      rw [hd, Finset.union_eq_empty, List.forall_mem_cons, and_assoc]

end Composed

/-! ### Cells and the bytes they stand for -/

section Shadows

variable {S A : Type} {C : Cells S A} {σ : Session} {ok : MethodCall → Prop}

/-- The cells of `s` stand for `m`: a cell holds the byte last written, and is empty
only where that byte does not depend on the input. -/
def Shadows (C : Cells S A) (s : S) (m : Bytes.Map A Input) : Prop :=
  ∀ a, match C.peek s a with
    | some e => ∃ f, m a = some f ∧ Composed 1 f e
    | none => ∀ f, m a = some f → ∀ ρ ρ', f ρ = f ρ'

/-- Where a cell is empty, the machine holds what was written there. -/
def ConsistentAt (σ : Session) (C : Cells S A) (s : S) (m : Bytes.Map A Input)
    (machine : A → BitVec 8) (as : List A) : Prop :=
  ∀ a ∈ as, C.peek s a = none → ∀ f, m a = some f → f σ.input = (machine a).toNat

/-- What the machine holds at `as` is what was written there. -/
def Consistent (σ : Session) (m : Bytes.Map A Input) (machine : A → BitVec 8) (as : List A) :
    Prop :=
  ∀ a ∈ as, ∀ f, m a = some f → f σ.input = (machine a).toNat

theorem Consistent.at {s : S} {m : Bytes.Map A Input} {machine : A → BitVec 8} {as : List A}
    (h : Consistent σ m machine as) : ConsistentAt σ C s m machine as :=
  fun a ha _ => h a ha

theorem Shadows.of_peek_some {s : S} {m : Bytes.Map A Input} (h : Shadows C s m) {a : A} {e : Expr}
    (he : C.peek s a = some e) : ∃ f, m a = some f ∧ Composed 1 f e := by
  have ha := h a
  rwa [he] at ha

theorem Shadows.of_peek_none {s : S} {m : Bytes.Map A Input} (h : Shadows C s m) {a : A}
    (he : C.peek s a = none) {f : Input → Nat} (hf : m a = some f) (ρ ρ' : Input) : f ρ = f ρ' := by
  have ha := h a
  rw [he] at ha
  exact ha f hf ρ ρ'

/-- `s'` is `s` with the cells at `as` empty. -/
def Cells.Cleared (C : Cells S A) (s : S) (as : List A) (s' : S) : Prop :=
  ∀ a, (a ∈ as → C.peek s' a = none) ∧ (a ∉ as → C.peek s' a = C.peek s a)

theorem Cells.clearExpr_builds (s : S) (a : A) :
    Builds σ ok (C.clearExpr s a) (C.Cleared s [a]) := by
  unfold Cells.clearExpr
  split
  next e he =>
      obtain ⟨s', hs'⟩ := Option.isSome_iff_exists.1 (C.poke_isSome none (by rw [he]; rfl))
      rw [Cells.assign, hs']
      refine .ret fun a' => ⟨fun h => ?_, fun h => C.peek_poke_ne hs' (by simpa using h)⟩
      rw [List.mem_singleton.1 h]
      exact C.peek_poke hs'
  next he =>
      refine .ret fun a' => ⟨fun h => ?_, fun _ => rfl⟩
      rw [List.mem_singleton.1 h, he]

theorem Cells.clearExprs_builds (s : S) (as : List A) :
    Builds σ ok (C.clearExprs s as) (C.Cleared s as) := by
  induction as generalizing s with
  | nil => exact .ret fun a => ⟨nofun, fun _ => rfl⟩
  | cons a as ih =>
      refine Total.bind (C.clearExpr_builds s a) fun s₁ h₁ => (ih s₁).mono fun s₂ h₂ a' => ?_
      obtain ⟨hin₁, hout₁⟩ := h₁ a'
      obtain ⟨hin₂, hout₂⟩ := h₂ a'
      by_cases ha : a' ∈ as
      · exact ⟨fun _ => hin₂ ha, fun h => absurd (List.mem_cons_of_mem a ha) h⟩
      · refine ⟨fun h => ?_, fun h => ?_⟩
        · obtain rfl | h := List.mem_cons.1 h
          · rw [hout₂ ha, hin₁ (List.mem_singleton_self _)]
          · exact absurd h ha
        · rw [hout₂ ha, hout₁ fun h' => h (List.mem_singleton.1 h' ▸ List.mem_cons_self)]

variable {s s' : S} {m : Bytes.Map A Input} {as : List A}

/-- Assigning to a cell. -/
theorem Cells.setExpr_yields (s : S) (a : A) (x : Expr) :
    Yields (body σ) ok (C.setExpr s a (some x)) (fun s' =>
      C.peek s' a = some x ∧ ∀ a', a' ≠ a → C.peek s' a' = C.peek s a') := by
  refine (Yields.of_total (C.clearExpr_builds s a)).bind fun s₁ h₁ => ?_
  show Yields _ _ (C.assign s₁ a (some x)) _
  unfold Cells.assign
  split
  next s₂ h₂ =>
      refine .ret ⟨C.peek_poke h₂, fun a' ha => ?_⟩
      rw [C.peek_poke_ne h₂ ha, (h₁ a').2 fun h => ha (List.mem_singleton.1 h)]
  next => exact .stop

/-- Clearing what does not depend on the input changes nothing. -/
theorem Shadows.clear_constant (h : Shadows C s m) (hs : C.Cleared s as s')
    (hconst : ∀ a ∈ as, ∀ f, m a = some f → ∀ ρ ρ', f ρ = f ρ') : Shadows C s' m := by
  intro a
  by_cases ha : a ∈ as
  · rw [(hs a).1 ha]
    exact hconst a ha
  · rw [(hs a).2 ha]
    exact h a

variable [DecidableEq A]

/-- Clearing forgets what was written. -/
theorem Shadows.erase (h : Shadows C s m) (hs : C.Cleared s as s') :
    Shadows C s' (Bytes.Map.erase as m) := by
  intro a
  rw [Bytes.Map.erase_apply]
  by_cases ha : a ∈ as
  · rw [(hs a).1 ha, if_pos ha]
    exact nofun
  · rw [(hs a).2 ha, if_neg ha]
    exact h a

/-- A cell takes a new byte. -/
theorem Shadows.update (h : Shadows C s m) {a : A} {x : Expr} {f : Input → Nat}
    (hx : Composed 1 f x) (hs : C.peek s' a = some x ∧ ∀ a', a' ≠ a → C.peek s' a' = C.peek s a') :
    Shadows C s' (Function.update m a (some f)) := by
  intro a'
  by_cases ha : a' = a
  · subst ha
    rw [hs.1, Function.update_self]
    exact ⟨f, rfl, hx⟩
  · rw [hs.2 a' ha, Function.update_of_ne ha]
    exact h a'

/-- Storing an expression stores the bytes of its value, as long as no division is
folded inexactly on the way. -/
theorem Cells.setBytes_yields {e : Expr} {n i : Nat} (he : e.IsBV n) (ht : e.Trimmed)
    (hn : (i + as.length) * 8 ≤ n) (h : Shadows C s m) :
    Yields (body σ) (FoldsExactly fun _ => True) (C.setBytes SymbolicExprBuilder.chain e s i as)
      (fun s' => Shadows C s' (Bytes.Map.store e.value i as m)) := by
  induction as generalizing s i m with
  | nil => exact .ret h
  | cons a as ih =>
      rw [List.length_cons] at hn
      refine (Yields.of_total (extract_composed he ht (by omega))).bind fun x hx => ?_
      refine (C.setExpr_yields s a x).bind fun s₁ hs₁ => ?_
      exact ih (by omega) (h.update hx hs₁)

omit [DecidableEq A] in
/-- Every cell of a store has a byte. -/
theorem Cells.setBytes_bytes {e : Expr} {n i : Nat} (he : e.IsBV n) (ht : e.Trimmed)
    (hn : (i + as.length) * 8 ≤ n) (has : as.Nodup) :
    Yields (body σ) (FoldsExactly fun _ => True) (C.setBytes SymbolicExprBuilder.chain e s i as)
      (fun s' => (∀ a, a ∉ as → C.peek s' a = C.peek s a) ∧ ∀ j a, as[j]? = some a →
        ∃ x, C.peek s' a = some x ∧ Composed 1 (fun ρ => Bytes.byte (e.value ρ) (i + j)) x) := by
  induction as generalizing s i with
  | nil => exact .ret ⟨fun _ _ => rfl, nofun⟩
  | cons a as ih =>
      obtain ⟨ha, has⟩ := List.nodup_cons.1 has
      rw [List.length_cons] at hn
      refine (Yields.of_total (extract_composed he ht (by omega))).bind fun x hx => ?_
      refine (C.setExpr_yields s a x).bind fun s₁ ⟨hset, hsame⟩ => ?_
      refine (ih (i := i + 1) (by omega) has).mono fun s₂ ⟨hout, hbytes⟩ => ⟨fun a' ha' => ?_, ?_⟩
      · rw [List.mem_cons, not_or] at ha'
        rw [hout a' ha'.2, hsame a' ha'.1]
      · intro j a' ha'
        cases j with
        | zero =>
            obtain rfl := Option.some.inj ha'
            exact ⟨x, (hout a ha).trans hset, hx⟩
        | succ j =>
            rw [show i + (j + 1) = i + 1 + j by omega]
            exact hbytes j a' ha'

omit [DecidableEq A] in
/-- Assigning returns where the cells may be written, which stays so. -/
theorem Cells.setExpr_returns {W : S → Prop} {a : A}
    (hW : ∀ s, W s → ∀ x, ∃ s', C.poke s a x = some s' ∧ W s') (hs : W s) (x : Option Expr) :
    Builds σ ok (C.setExpr s a x) W := by
  have hassign (s : S) (hs : W s) (x : Option Expr) : Builds σ ok (C.assign s a x) W := by
    obtain ⟨s', hpoke, hs'⟩ := hW s hs x
    unfold Cells.assign
    rw [hpoke]
    exact .ret hs'
  have hclear : Builds σ ok (C.clearExpr s a) W := by
    unfold Cells.clearExpr
    split
    next => exact hassign s hs none
    next => exact .ret hs
  refine Total.bind hclear fun s' hs' => ?_
  cases x with
  | none => exact .ret hs'
  | some e => exact hassign s' hs' (some e)

omit [DecidableEq A] in
/-- A store returns where the cells may be written. -/
theorem Cells.setBytes_returns {W : S → Prop} {e : Expr} {n i : Nat} (he : e.IsBV n)
    (hn : (i + as.length) * 8 ≤ n)
    (hW : ∀ s, W s → ∀ a ∈ as, ∀ x, ∃ s', C.poke s a x = some s' ∧ W s') (hs : W s) :
    Builds σ (FoldsExactly fun _ => True) (C.setBytes SymbolicExprBuilder.chain e s i as) W := by
  induction as generalizing s i with
  | nil => exact .ret hs
  | cons a as ih =>
      rw [List.length_cons] at hn
      have hpart : (Call.extract e (i * 8) 8).plain.IsBV (1 * 8) :=
        isBV_extract he (by omega) (by omega) 0
      have hextract := chain_sound σ (fun _ => True) (.extract e (i * 8) 8) rfl hpart.wellSorted
      refine Total.bind hextract fun x _ => ?_
      refine Total.bind (C.setExpr_returns (fun s hs => hW s hs a List.mem_cons_self) hs (some x))
        fun s' hs' => ?_
      exact ih (by omega) (fun s hs a' ha' => hW s hs a' (List.mem_cons_of_mem a ha')) hs'

section Stays

variable {reads : Nat → Prop} {divides : Prop} {W : S → Prop}

omit [DecidableEq A] in
theorem Cells.assign_stays {a : A} {x : Option Expr} (hW : ∀ s', C.poke s a x = some s' → W s') :
    (C.assign s a x).Stays reads divides W := by
  unfold Cells.assign
  split
  next s' hpoke => exact hW s' hpoke
  next => trivial

omit [DecidableEq A] in
theorem Cells.clearExpr_stays {a : A} (hW : ∀ s', C.poke s a none = some s' → W s') (hs : W s) :
    (C.clearExpr s a).Stays reads divides W := by
  unfold Cells.clearExpr
  split
  next => exact Cells.assign_stays hW
  next => exact hs

omit [DecidableEq A] in
/-- Clearing calls no builder. -/
theorem Cells.clearExprs_stays (hW : ∀ s a s', W s → C.poke s a none = some s' → W s') (hs : W s)
    (as : List A) : (C.clearExprs s as).Stays reads divides W := by
  induction as generalizing s with
  | nil => exact hs
  | cons a as ih => exact (Cells.clearExpr_stays (hW s a · hs) hs).bind fun s' hs' => ih hs'

omit [DecidableEq A] in
theorem Cells.setExpr_stays (s : S) (a : A) (x : Option Expr) :
    (C.setExpr s a x).Stays reads divides fun _ => True := by
  refine (Cells.clearExpr_stays (fun _ _ => trivial) trivial).bind fun s' _ => ?_
  cases x with
  | none => trivial
  | some x => exact Cells.assign_stays fun _ _ => trivial

omit [DecidableEq A] in
/-- A store only calls the builder with parts of what it stores. -/
theorem Cells.setBytes_stays {b : ExprBuilder} {e : Expr}
    (he : e.Over reads divides) (s : S) (i : Nat) (as : List A) :
    (C.setBytes b e s i as).Stays reads divides fun _ => True := by
  induction as generalizing s i with
  | nil => trivial
  | cons a as ih =>
      refine Build.stays_create_bind.2 ⟨he, fun x _ => ?_⟩
      exact (Cells.setExpr_stays s a (some x)).bind fun s' _ => ih s' _

end Stays

end Shadows

/-! ### Reading a value -/

section Reading

variable {S A : Type} {C : Cells S A} {σ : Session} {ok : MethodCall → Prop}
variable {s : S} {m : Bytes.Map A Input} {as : List A} {machine : A → BitVec 8}

/-- The byte `f` of a cell with the machine byte next to it. -/
def CellByte (cell : Option Expr × BitVec 8) (f : Input → Nat) : Prop :=
  match cell.1 with
  | some e => Composed 1 f e
  | none => ∀ ρ, f ρ = cell.2.toNat

theorem pushBytes_builds {cells : List (Option Expr × BitVec 8)} {fs : List (Input → Nat)}
    (h : List.Forall₂ CellByte cells fs) (exprs : List Expr) :
    Builds σ ok (Cells.pushBytes SymbolicExprBuilder.chain cells exprs) (fun xs =>
      ∃ ys, xs = ys.reverse ++ exprs ∧ List.Forall₂ (Composed 1) fs ys ∧
        ((∀ y ∈ ys, y.getDeps = ∅) ↔ ∀ c ∈ cells, ∀ e, c.1 = some e → e.getDeps = ∅)) := by
  induction h generalizing exprs with
  | nil => exact .ret ⟨[], rfl, .nil, by simp⟩
  | @cons cell f cells fs hf _ ih =>
      have hcons (y : Expr) (hy : Composed 1 f y)
          (hd : y.getDeps = ∅ ↔ ∀ e, cell.1 = some e → e.getDeps = ∅) :
          Builds σ ok (Cells.pushBytes SymbolicExprBuilder.chain cells (y :: exprs)) (fun xs =>
            ∃ ys, xs = ys.reverse ++ exprs ∧ List.Forall₂ (Composed 1) (f :: fs) ys ∧
              ((∀ y ∈ ys, y.getDeps = ∅) ↔
                ∀ c ∈ cell :: cells, ∀ e, c.1 = some e → e.getDeps = ∅)) := by
        refine (ih (y :: exprs)).mono ?_
        rintro xs ⟨ys, rfl, hys, hds⟩
        refine ⟨y :: ys, by simp, .cons hy hys, ?_⟩
        rw [List.forall_mem_cons, List.forall_mem_cons, hd, hds]
      obtain ⟨x, v⟩ := cell
      cases x with
      | some e => exact hcons e hf (by simp)
      | none =>
          refine Total.bind (constant_composed v) fun y ⟨hy, hd⟩ => hcons y ?_ (by simp [hd])
          exact ⟨hy.trimmed, hy.isBV, fun ρ => (hy.value ρ).trans (hf ρ).symm⟩

/-- What the cells and the machine have at `a` is the byte of the map. -/
theorem Shadows.cellByte (h : Shadows C s m) (hm : ConsistentAt σ C s m machine as)
    {a : A} (ha : a ∈ as) :
    CellByte (C.peek s a, machine a) (fun ρ => m.byteAt (fun a => (machine a).toNat) ρ a) := by
  unfold CellByte
  cases he : C.peek s a with
  | some e =>
      obtain ⟨f, hf, hx⟩ := h.of_peek_some he
      simpa only [Bytes.Map.byteAt, hf] using hx
  | none =>
      intro ρ
      cases hf : m a with
      | none => simp only [Bytes.Map.byteAt, hf]
      | some f =>
          simp only [Bytes.Map.byteAt, hf]
          exact (h.of_peek_none he hf ρ σ.input).trans (hm a ha he f hf)

/-- A byte without dependencies is the same for every input. -/
theorem Shadows.constant_of_getDeps (h : Shadows C s m) {a : A}
    (ha : ∀ e, C.peek s a = some e → e.getDeps = ∅) {f : Input → Nat} (hf : m a = some f)
    (ρ ρ' : Input) : f ρ = f ρ' := by
  cases he : C.peek s a with
  | none => exact h.of_peek_none he hf ρ ρ'
  | some e =>
      obtain ⟨f', hf', hx⟩ := h.of_peek_some he
      obtain rfl : f' = f := Option.some.inj (hf'.symm.trans hf)
      rw [← hx.value, ← hx.value]
      exact value_congr fun i hi => absurd (ha e he ▸ hi) (Finset.notMem_empty i)

/-- The bytes from the highest down make the little-endian number. -/
theorem foldl_reverse_eq (fs : List (Input → Nat)) (ρ : Input) :
    fs.reverse.foldl (fun n f => n * 256 + f ρ) 0 = Bytes.littleEndian (fs.map (· ρ)) := by
  rw [List.foldl_reverse, ← Bytes.foldr_eq_littleEndian, List.foldr_map]

/-- What a read answers. -/
structure ReadsAs (C : Cells S A) (s : S) (m : Bytes.Map A Input) (machine : A → BitVec 8)
    (as : List A) (r : Option Expr × S) : Prop where
  /-- Nothing, if no byte depends on the input. -/
  none_iff : r.1 = none ↔ ∀ a ∈ as, ∀ e, C.peek s a = some e → e.getDeps = ∅
  /-- Otherwise the number at the addresses, for every input. -/
  composed : ∀ e, r.1 = some e →
    Composed as.length (fun ρ => m.read (fun a => (machine a).toNat) as ρ) e
  shadows : Shadows C r.2 m

/-- **Reading gives the little-endian number at the addresses.** -/
theorem Cells.getExprs_builds (h : Shadows C s m) (hm : ConsistentAt σ C s m machine as) :
    Builds σ ok (C.getExprs SymbolicExprBuilder.chain s machine as)
      (ReadsAs C s m machine as) := by
  unfold Cells.getExprs
  split
  next hsym =>
      set fs := as.map fun a ρ => m.byteAt (fun a => (machine a).toNat) ρ a with hfs
      have hcells : List.Forall₂ CellByte (as.map fun a => (C.peek s a, machine a)) fs := by
        rw [List.forall₂_map_left_iff, hfs, List.forall₂_map_right_iff, List.forall₂_same]
        exact fun a ha => h.cellByte hm ha
      refine Total.bind (pushBytes_builds hcells []) ?_
      rintro xs ⟨ys, rfl, hys, hdeps⟩
      rw [List.append_nil]
      have hdeps : (∀ y ∈ ys.reverse, y.getDeps = ∅) ↔
          ∀ a ∈ as, ∀ e, C.peek s a = some e → e.getDeps = ∅ := by
        simpa using hdeps
      have hlen : ys.reverse.length = as.length := by
        rw [List.length_reverse, ← hys.length_eq, hfs, List.length_map]
      have hval (ρ : Input) : m.read (fun a => (machine a).toNat) as ρ =
          fs.reverse.foldl (fun n f => n * 256 + f ρ) 0 := by
        rw [foldl_reverse_eq, Bytes.Map.read, hfs, List.map_map]
        rfl
      have hys := List.rel_reverse hys
      generalize ys.reverse = zs at hys hdeps hlen
      generalize fs.reverse = gs at hys hval
      cases hys with
      | nil =>
          obtain rfl : as = [] := List.length_eq_zero_iff.1 hlen.symm
          cases hsym
      | @cons g z gs zs hz hzs =>
          refine Total.bind (createConcatList_composed hz hzs) ?_
          rintro x ⟨hx, hd⟩
          have hd : x.getDeps = ∅ ↔ ∀ a ∈ as, ∀ e, C.peek s a = some e → e.getDeps = ∅ := by
            rw [hd, ← hdeps, List.forall_mem_cons]
          split
          next hc =>
              have hall := hd.1 (isConcrete_iff.1 hc)
              refine Total.bind (C.clearExprs_builds s as) fun s' hs' => .ret
                ⟨iff_of_true rfl hall, by rintro _ ⟨⟩, h.clear_constant hs' fun a ha f hf => ?_⟩
              exact h.constant_of_getDeps (hall a ha) hf
          next hc =>
              refine .ret ⟨iff_of_false (by rintro ⟨⟩)
                fun hall => hc (isConcrete_iff.2 (hd.2 hall)), ?_, h⟩
              rintro _ ⟨⟩
              rw [List.length_cons] at hlen
              rw [Nat.add_comm, hlen] at hx
              refine ⟨hx.trimmed, hx.isBV, fun ρ => ?_⟩
              rw [hx.value, hval, List.foldl_cons, Nat.zero_mul, Nat.zero_add]
  next hsym =>
      refine .ret ⟨iff_of_true rfl fun a ha e he => ?_, by rintro _ ⟨⟩, h⟩
      simp only [Cells.isSymbolic, List.any_eq_true, not_exists, not_and] at hsym
      exact absurd (by rw [he]; rfl) (hsym a ha)

/-! ### Cells of bytes -/

/-- Every cell that is not empty holds an expression of a byte. -/
def Cells.HoldBytes (C : Cells S A) (s : S) : Prop :=
  ∀ a e, C.peek s a = some e → e.Trimmed ∧ e.IsBV 8

/-- The bytes that the cells hold. -/
def Cells.own (C : Cells S A) (s : S) : Bytes.Map A Input :=
  fun a => (C.peek s a).map fun e ρ => e.value ρ

theorem Cells.HoldBytes.shadows (h : C.HoldBytes s) : Shadows C s (C.own s) := by
  intro a
  unfold Cells.own
  split
  next e he => exact ⟨_, by rw [he, Option.map_some], (h a e he).1, (h a e he).2, fun _ => rfl⟩
  next he => simp [he]

theorem Cells.own_consistentAt (s : S) (machine : A → BitVec 8) (as : List A) :
    ConsistentAt σ C s (C.own s) machine as := by
  intro a _ hnone f hf
  simp [Cells.own, hnone] at hf

theorem Cells.HoldBytes.cleared {s' : S} (h : C.HoldBytes s) (hs : C.Cleared s as s') :
    C.HoldBytes s' := by
  intro a e he
  by_cases ha : a ∈ as
  · rw [(hs a).1 ha] at he
    cases he
  · exact h a e ((hs a).2 ha ▸ he)

theorem Cells.HoldBytes.assign {a : A} {x : Option Expr} (h : C.HoldBytes s)
    (hx : ∀ e, x = some e → e.Trimmed ∧ e.IsBV 8) :
    Yields (body σ) ok (C.assign s a x) C.HoldBytes := by
  unfold Cells.assign
  split
  next s' hpoke =>
      refine .ret fun a' e he => ?_
      by_cases ha : a' = a
      · subst ha
        exact hx e ((C.peek_poke hpoke).symm.trans he)
      · exact h a' e ((C.peek_poke_ne hpoke ha).symm.trans he)
  next => exact .stop

theorem Cells.HoldBytes.setExpr {a : A} {e : Expr} (h : C.HoldBytes s) (ht : e.Trimmed)
    (he : e.IsBV 8) :
    Yields (body σ) ok (C.setExpr s a (some e)) C.HoldBytes := by
  have hclear : Yields (body σ) ok (C.clearExpr s a) C.HoldBytes := by
    unfold Cells.clearExpr
    split
    next => exact h.assign nofun
    next => exact .ret h
  refine hclear.bind fun s' hs' => hs'.assign ?_
  rintro _ ⟨⟩
  exact ⟨ht, he⟩

/-- A store leaves a byte in every cell. -/
theorem Cells.HoldBytes.setBytes {e : Expr} {n i : Nat} (h : C.HoldBytes s) (he : e.IsBV n)
    (ht : e.Trimmed) (hn : (i + as.length) * 8 ≤ n) :
    Yields (body σ) (FoldsExactly fun _ => True)
      (C.setBytes SymbolicExprBuilder.chain e s i as) C.HoldBytes := by
  induction as generalizing s i with
  | nil => exact .ret h
  | cons a as ih =>
      rw [List.length_cons] at hn
      refine (Yields.of_total (extract_composed he ht (by omega))).bind fun x hx => ?_
      exact (h.setExpr hx.trimmed hx.isBV).bind fun s' hs' => ih hs' (by omega)

/-- A read that answers nothing has cleared the cells; otherwise nothing has changed. -/
theorem Cells.getExprs_state (b : ExprBuilder) (s : S) (machine : A → BitVec 8) (as : List A) :
    Yields (body σ) ok (C.getExprs b s machine as) (fun x =>
      (x.1 = none → C.Cleared s as x.2) ∧ (x.1 ≠ none → x.2 = s)) := by
  unfold Cells.getExprs
  split
  next =>
      refine Yields.bind (P := fun _ => True) (fun _ _ _ _ _ => trivial) fun exprs _ => ?_
      refine Yields.bind (P := fun _ => True) (fun _ _ _ _ _ => trivial) fun e _ => ?_
      split
      next =>
          refine (Yields.of_total (C.clearExprs_builds s as)).bind fun s' hs' => ?_
          exact .ret ⟨fun _ => hs', fun h => absurd rfl h⟩
      next => exact .ret ⟨nofun, fun _ => rfl⟩
  next hsym =>
      refine .ret ⟨fun _ a => ⟨fun ha => ?_, fun _ => rfl⟩, fun h => absurd rfl h⟩
      simp only [Cells.isSymbolic, List.any_eq_true, not_exists, not_and] at hsym
      exact Option.not_isSome_iff_eq_none.1 (hsym a ha)

/-- `s'` is `s` with something written to cells, which are empty if it is nothing. -/
def Cells.Written (C : Cells S A) (s : S) (as : List A) (x : Option Expr) (s' : S) : Prop :=
  (∀ a, a ∉ as → C.peek s' a = C.peek s a) ∧ (x = none → C.Cleared s as s')

/-- Cells are cleared before others are written. -/
theorem Cells.Cleared.written {s₁ s' : S} {bs : List A} {x : Option Expr} (h₁ : C.Cleared s as s₁)
    (h₂ : C.Written s₁ bs x s') : C.Written s (as ++ bs) x s' := by
  refine ⟨fun a ha => ?_, fun hx a => ?_⟩
  · rw [List.mem_append, not_or] at ha
    exact (h₂.1 a ha.2).trans ((h₁ a).2 ha.1)
  · rw [List.mem_append]
    by_cases ha : a ∈ bs
    · exact ⟨fun _ => (h₂.2 hx a).1 ha, fun h => absurd (.inr ha) h⟩
    · exact ⟨fun h => (h₂.1 a ha).trans ((h₁ a).1 (h.resolve_right ha)),
        fun h => (h₂.1 a ha).trans ((h₁ a).2 fun h' => h (.inl h'))⟩

theorem Cells.setExprs_state (b : ExprBuilder) (s : S) (as : List A) (e : Option Expr) :
    Yields (body σ) ok (C.setExprs b s as e) (C.Written s as e) := by
  have hbytes (e : Expr) (i : Nat) : Yields (body σ) ok (C.setBytes b e s i as)
      (fun s' => ∀ a, a ∉ as → C.peek s' a = C.peek s a) := by
    induction as generalizing s i with
    | nil => exact .ret fun _ _ => rfl
    | cons a as ih =>
        refine Yields.bind (P := fun _ => True) (fun _ _ _ _ _ => trivial) fun x _ => ?_
        refine (C.setExpr_yields s a x).bind fun s₁ hs₁ => (ih s₁ (i + 1)).mono
          fun s₂ hs₂ a' ha' => ?_
        rw [List.mem_cons, not_or] at ha'
        rw [hs₂ a' ha'.2, hs₁.2 a' ha'.1]
  cases e with
  | some e => exact (hbytes e 0).mono fun s' hs' => ⟨hs', nofun⟩
  | none =>
      exact (Yields.of_total (C.clearExprs_builds s as)).mono fun s' hs' =>
        ⟨fun a ha => (hs' a).2 ha, fun _ => hs'⟩

/-- Assigning to one cell. -/
theorem Cells.setExpr_state (s : S) (a : A) (e : Option Expr) :
    Yields (body σ) ok (C.setExpr s a e) (fun s' =>
      C.peek s' a = e ∧ ∀ a', a' ≠ a → C.peek s' a' = C.peek s a') := by
  cases e with
  | some e => exact C.setExpr_yields s a e
  | none =>
      refine (Yields.of_total (C.clearExpr_builds s a)).bind fun s' hs' =>
        .ret ⟨?_, fun a' ha' => ?_⟩
      · exact (hs' a).1 (List.mem_singleton_self a)
      · exact (hs' a').2 fun h => ha' (List.mem_singleton.1 h)

theorem Cells.setExpr_written (s : S) (a : A) (e : Option Expr) :
    Yields (body σ) ok (C.setExpr s a e) (C.Written s [a] e) := by
  refine (C.setExpr_state s a e).mono fun s' ⟨hset, hsame⟩ => ⟨fun a' ha' => ?_, fun he a' => ?_⟩
  · exact hsame a' fun heq => ha' (heq ▸ List.mem_singleton_self a)
  · rw [List.mem_singleton]
    refine ⟨fun heq => ?_, hsame a'⟩
    rw [heq, hset, he]

/-! ### What assignments keep -/

section Kept

variable {W : S → Prop} (hW : ∀ s a x s', W s → C.poke s a x = some s' → W s')
include hW

theorem Cells.assign_keeps (hs : W s) (a : A) (x : Option Expr) :
    Yields (body σ) ok (C.assign s a x) W := by
  unfold Cells.assign
  split
  next s' hpoke => exact .ret (hW s a x s' hs hpoke)
  next => exact .stop

theorem Cells.clearExpr_keeps (hs : W s) (a : A) : Yields (body σ) ok (C.clearExpr s a) W := by
  unfold Cells.clearExpr
  split
  next => exact Cells.assign_keeps hW hs a none
  next => exact .ret hs

theorem Cells.clearExprs_keeps (hs : W s) (as : List A) :
    Yields (body σ) ok (C.clearExprs s as) W := by
  induction as generalizing s with
  | nil => exact .ret hs
  | cons a as ih => exact (Cells.clearExpr_keeps hW hs a).bind fun s' hs' => ih hs'

theorem Cells.setExpr_keeps (hs : W s) (a : A) (x : Option Expr) :
    Yields (body σ) ok (C.setExpr s a x) W := by
  refine (Cells.clearExpr_keeps hW hs a).bind fun s' hs' => ?_
  cases x with
  | none => exact .ret hs'
  | some e => exact Cells.assign_keeps hW hs' a (some e)

theorem Cells.setExprs_keeps (b : ExprBuilder) (hs : W s) (as : List A) (x : Option Expr) :
    Yields (body σ) ok (C.setExprs b s as x) W := by
  have hbytes (e : Expr) (i : Nat) : Yields (body σ) ok (C.setBytes b e s i as) W := by
    induction as generalizing s i with
    | nil => exact .ret hs
    | cons a as ih =>
        refine Yields.bind (P := fun _ => True) (fun _ _ _ _ _ => trivial) fun x _ => ?_
        exact (Cells.setExpr_keeps hW hs a (some x)).bind fun s' hs' => ih hs' (i + 1)
  cases x with
  | none => exact Cells.clearExprs_keeps hW hs as
  | some e => exact hbytes e 0

theorem Cells.getExprs_keeps (b : ExprBuilder) (hs : W s) (machine : A → BitVec 8) (as : List A) :
    Yields (body σ) ok (C.getExprs b s machine as) fun x => W x.2 := by
  unfold Cells.getExprs
  split
  next =>
      refine Yields.bind (P := fun _ => True) (fun _ _ _ _ _ => trivial) fun exprs _ => ?_
      refine Yields.bind (P := fun _ => True) (fun _ _ _ _ _ => trivial) fun e _ => ?_
      split
      next => exact (Cells.clearExprs_keeps hW hs as).bind fun s' hs' => .ret hs'
      next => exact .ret hs
  next => exact .ret hs

end Kept

end Reading

end Qsym
