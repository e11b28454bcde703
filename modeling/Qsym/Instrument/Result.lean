import Qsym.Instrument.Returning

/-!
# Qsym.Instrument.Result

Results **by value**. An operand shows a value if every byte of it has an expression and
these come to the value (`Shows`). A handler that computes from operands either finds
nothing that depends on the input, and then leaves nothing at them (`Idle`), so that the
bytes of the process are taken, or puts an expression of the result into its destination
(`Puts`).
-/

namespace Qsym

open Procedure Qsym.Expr

namespace Process

open Handler Stateful

variable {Reg : Type} [DecidableEq Reg] (T : Process Reg)

/-- For the input `ρ` the expressions of an operand come to `w`. -/
def Shows (v : ShadowMap Reg) (o : Operand Reg) (ρ : Input) (w : BitVec (o.size T * 8)) : Prop :=
  ∀ i < o.size T, ∃ e, v (o.place T i) = some e ∧ e.value ρ = Bytes.byte w.toNat i

/-- From `v` to `v'` an operand is written with the value `u`. -/
structure Puts (v v' : ShadowMap Reg) (o : Operand Reg) (u : Input → BitVec (o.size T * 8)) :
    Prop where
  shows : ∀ ρ, T.Shows v' o ρ (u ρ)
  upper : ∀ k ∈ o.upper T, v' k = none
  other : ∀ k, k ∉ o.written T → v' k = v k

/-- Nothing depended on the input, and nothing is left at the operands. -/
structure Idle (v v' : ShadowMap Reg) (os : List (Operand Reg)) : Prop where
  fades : Fades v v'
  empty : T.Empty v' os

/-- What a handler does that computes the value `u` of the destination `o` from `os`. -/
def Computed (v v' : ShadowMap Reg) (os : List (Operand Reg)) (o : Operand Reg)
    (u : Input → BitVec (o.size T * 8)) : Prop :=
  T.Idle v v' os ∨ ∃ v₁, Fades v v₁ ∧ T.Puts v₁ v' o u

open Classical in
/-- The shadow map after an operand was read: what comes to nothing leaves nothing. -/
noncomputable def afterRead (v : ShadowMap Reg) (o : Operand Reg) : ShadowMap Reg :=
  if T.ReadsNull v o then clear v (o.places T) else v

/-- Operands are read one after the other, and some of them comes to an expression. -/
def Answers (v : ShadowMap Reg) : List (Operand Reg) → Prop
  | [] => False
  | o :: os => ¬ T.ReadsNull v o ∨ Answers (T.afterRead v o) os

open Classical in
/-- The shadow map after the registers of an address were read. -/
noncomputable def afterAddress (v : ShadowMap Reg) (m : MemArg Reg) : ShadowMap Reg :=
  let part v r := if r ≠ T.pin.regInvalid then T.afterRead v (.reg r) else v
  part (part v m.base) m.index

omit [DecidableEq Reg] in
/-- Where there is no expression the byte of the process is taken, which is right if the value
is the one for the input that it runs on. -/
def Stands (input : Input) (x : Option Expr) (f : Input → Nat) (ρ : Input) : Prop :=
  match x with
  | some e => e.value ρ = f ρ
  | none => f ρ = f input

variable {T} {σ : Session} {ok : MethodCall → Prop} {input : Input} {α β : Type} {s s₁ : Shadow}
variable {v v' : ShadowMap Reg} {o : Operand Reg} {os : List (Operand Reg)} {ρ : Input}
variable {w w' : BitVec (o.size T * 8)} {u : Input → BitVec (o.size T * 8)} {k : Place Reg}

/-- A number is what its bytes are. -/
theorem eq_of_bytes {n : Nat} {w w' : BitVec (n * 8)}
    (h : ∀ i < n, Bytes.byte w.toNat i = Bytes.byte w'.toNat i) : w = w' := by
  have hmod (w : BitVec (n * 8)) :
      Bytes.littleEndian ((List.range' 0 n).map (Bytes.byte w.toNat)) = w.toNat := by
    rw [Bytes.littleEndian_bytes, Nat.zero_mul, pow_zero, Nat.div_one, Nat.mod_eq_of_lt w.isLt]
  apply BitVec.eq_of_toNat_eq
  rw [← hmod w, ← hmod w']
  refine congrArg _ (List.map_congr_left fun i hi => h i ?_)
  have hlt := (List.mem_range'_1.1 hi).2
  omega

omit [DecidableEq Reg] in
/-- An operand shows one value only. -/
theorem Shows.iff_eq (h : T.Shows v o ρ w) : T.Shows v o ρ w' ↔ w = w' := by
  constructor
  · intro h'
    refine eq_of_bytes fun i hi => ?_
    obtain ⟨e, he, hval⟩ := h i hi
    obtain ⟨e', he', hval'⟩ := h' i hi
    obtain rfl := Option.some.inj (he.symm.trans he')
    exact hval.symm.trans hval'
  · rintro rfl
    exact h

omit [DecidableEq Reg] in
theorem Idle.not_symbolic (h : T.Idle v v' os) (ho : o ∈ os) (hk : k ∈ o.places T) :
    ¬ Symbolic v k :=
  h.fades.not_symbolic (h.empty o ho k hk)

omit [DecidableEq Reg] in
theorem stands_of_fades (hfades : Fades v v') (hv : T.Consistent input v) :
    Stands input (v' k) (T.byteValue v · k) ρ := by
  have hsame (hk : v' k = none) (h : ¬ Symbolic v k) :
      Stands input (v' k) (T.byteValue v · k) ρ := by
    rw [hk]
    exact (hv.byteValue h ρ).trans (hv.byteValue h input).symm
  rcases hfades k with h | ⟨hnot, hnone⟩
  · cases hk : v k with
    | none => exact hsame (h.trans hk) (by rintro ⟨e, he, -⟩; exact nomatch hk.symm.trans he)
    | some e =>
        rw [h, hk]
        change e.value ρ = T.byteValue v ρ k
        rw [byteValue, hk]
  · exact hsame hnone hnot

/-! ### Writing -/

theorem set_keepsEflags (o : Operand Reg) (x : Option Expr) : KeepsEflags σ ok (o.set T x) := by
  cases o with
  | reg r => exact T.setExprToReg_keepsEflags r x
  | mem addr n => exact T.setExprToMem_keepsEflags addr n x

theorem set_puts (hP : T.pin.Documented) (hb : T.builder = SymbolicExprBuilder.chain)
    (ho : o.size T ≤ 2 ^ 64) {e : Expr} (he : Expresses (o.size T * 8) u e) :
    Ensures (body σ) exactly (o.set T (some e)) s fun _ s' _ =>
      s'.eflags = s.eflags ∧ T.Puts (T.peek s) (T.peek s') o u := by
  have hfits : T.Fits o (some e) := by
    rintro _ ⟨⟩
    exact ⟨he.trimmed, he.isBV⟩
  refine ((set_keepsEflags o (some e) s).and (set_holds hP hb ho hfits)).mono
    fun _ s' _ ⟨heq, hholds, hupper, hother⟩ => ?_
  refine ⟨heq, fun ρ i hi => ?_, hupper, hother⟩
  obtain ⟨y, hy, hval⟩ := hholds i hi
  refine ⟨y, hy, ?_⟩
  rw [hval, ← he.isBV.toNat_bv, he.bv ρ trivial]

theorem set_achieves (hP : T.pin.Documented) (hb : T.builder = SymbolicExprBuilder.chain)
    (hw : T.Writable s o) (ho : o.size T ≤ 2 ^ 64) {e : Expr} (he : Expresses (o.size T * 8) u e) :
    Achieves (body σ) exactly (o.set T (some e)) s fun _ s' _ =>
      s'.eflags = s.eflags ∧ T.Puts (T.peek s) (T.peek s') o u :=
  (set_returns hP hb hw he.isBV).achieves (set_puts hP hb ho he)

/-- Something wider than the register is cut off. -/
theorem setExprToReg_puts_low (hP : T.pin.Documented) (hb : T.builder = SymbolicExprBuilder.chain)
    {r : Reg} {n : Nat} {u : Input → BitVec n} {e : Expr} (he : Expresses n u e)
    (hn : T.pin.regSize r * 8 ≤ n) (h1 : T.pin.regSize r = 1 → n = 8) :
    Ensures (body σ) exactly (T.setExprToReg r (some e)) s fun _ s' _ =>
      s'.eflags = s.eflags ∧ T.Puts (T.peek s) (T.peek s') (.reg r) fun ρ => (u ρ).setWidth _ := by
  refine ((T.setExprToReg_keepsEflags r (some e) s).and ((setExprToReg_holds_low hP hb he.isBV
    he.trimmed hn h1).and (setExprToReg_written hP r (some e)))).mono ?_
  intro _ s' _ ⟨heq, ⟨hholds, hupper⟩, _, _, hwritten⟩
  refine ⟨heq, fun ρ i hi => ?_, hupper, fun k hk => hwritten.same k ?_⟩
  · obtain ⟨y, hy, hval⟩ := hholds i hi
    refine ⟨y, hy, ?_⟩
    rw [hval, ← he.isBV.toNat_bv, he.bv ρ trivial, BitVec.toNat_setWidth, Bytes.byte_mod _ hi]
  · exact mt (Operand.mem_dropped_iff hP (.reg r) k).1 hk

/-! ### Computing -/

omit [DecidableEq Reg] in
/-- A handler that only changes the flags before it goes on. -/
theorem onEflags_bind {f : Eflags → Eflags} {p : Unit → Handler Reg β}
    {Q : β → Shadow → List (Request Reg) → Prop}
    (h : Achieves (body σ) ok (p ()) { s with eflags := f s.eflags } Q) :
    Achieves (body σ) ok (onEflags f >>= p) s Q := by
  have hset : Achieves (body σ) ok (onEflags f : Handler Reg Unit) s fun _ s' l =>
      s' = { s with eflags := f s.eflags } ∧ l = [] := Total.ret ⟨rfl, rfl⟩
  refine hset.bind fun _ _ _ ⟨hs, hl⟩ => ?_
  rw [hs, hl]
  exact h

omit [DecidableEq Reg] in
theorem onEflags_achieves (f : Eflags → Eflags) :
    Achieves (body σ) ok (onEflags f : Handler Reg Unit) s
    fun _ s' _ => s' = { s with eflags := f s.eflags } :=
  Total.ret rfl

/-- What comes of the operands: nothing that depends on the input, or expressions. -/
theorem computing_ensures {operands : Handler Reg (Option α)} {concrete : Handler Reg Unit}
    {compute : α → Handler Reg Unit} {R : α → Prop} {Q : Shadow → Prop}
    (h : Fetches σ T operands s os R)
    (hconcrete : ∀ s₁, T.Aged s s₁ → T.Idle (T.peek s) (T.peek s₁) os →
      Ensures (body σ) exactly concrete s₁ fun _ s' _ => Q s')
    (hcompute : ∀ s₁ a, T.Aged s s₁ → R a →
      Ensures (body σ) exactly (compute a) s₁ fun _ s' _ => Q s') :
    Ensures (body σ) exactly (computing operands concrete compute) s fun _ s' _ => Q s' := by
  refine Ensures.bind h fun x s₁ _ ⟨h₁, hx⟩ => ?_
  cases x with
  | none => exact hconcrete s₁ h₁ ⟨h₁.fades, hx⟩
  | some a => exact hcompute s₁ a h₁ hx

/-- The operands of `computing_achieves`, and what is known if nothing comes of them. -/
theorem computing_achieves_of {operands : Handler Reg (Option α)} {concrete : Handler Reg Unit}
    {compute : α → Handler Reg Unit} {R : α → Prop} {C : Prop} {Q : Shadow → Prop}
    (h : Fetches σ T operands s os R) (hreads : Returns (body σ) exactly operands s)
    (hnone : Ensures (body σ) exactly operands s fun x _ _ => x = none → C)
    (hconcrete : ∀ s₁, C → T.Aged s s₁ → T.Idle (T.peek s) (T.peek s₁) os →
      Achieves (body σ) exactly concrete s₁ fun _ s' _ => Q s')
    (hcompute : ∀ s₁ a, T.Aged s s₁ → R a →
      Achieves (body σ) exactly (compute a) s₁ fun _ s' _ => Q s') :
    Achieves (body σ) exactly (computing operands concrete compute) s fun _ s' _ => Q s' := by
  refine Achieves.bind (hreads.achieves (Ensures.and h hnone)) fun x s₁ _ ⟨⟨h₁, hx⟩, hC⟩ => ?_
  cases x with
  | none => exact hconcrete s₁ (hC rfl) h₁ ⟨h₁.fades, hx⟩
  | some a => exact hcompute s₁ a h₁ hx

/-- `computing_ensures` where the operands are read and the two ways return. -/
theorem computing_achieves {operands : Handler Reg (Option α)} {concrete : Handler Reg Unit}
    {compute : α → Handler Reg Unit} {R : α → Prop} {Q : Shadow → Prop}
    (h : Fetches σ T operands s os R) (hreads : Returns (body σ) exactly operands s)
    (hconcrete : ∀ s₁, T.Aged s s₁ → T.Idle (T.peek s) (T.peek s₁) os →
      Achieves (body σ) exactly concrete s₁ fun _ s' _ => Q s')
    (hcompute : ∀ s₁ a, T.Aged s s₁ → R a →
      Achieves (body σ) exactly (compute a) s₁ fun _ s' _ => Q s') :
    Achieves (body σ) exactly (computing operands concrete compute) s fun _ s' _ => Q s' :=
  computing_achieves_of h hreads (C := True) (fun _ _ _ _ _ _ => trivial)
    (fun s₁ _ => hconcrete s₁) hcompute

/-! ### Whether the operands come to an expression -/

section Answers

variable (hP : T.pin.Documented) (hb : T.builder = SymbolicExprBuilder.chain)

theorem Reads.peek_eq {x : Option Expr} (h : T.Reads s o x s₁) :
    T.peek s₁ = T.afterRead (T.peek s) o := by
  unfold afterRead
  split
  next hnull => exact (h.cleared (h.none_iff.2 hnull)).peek_eq
  next hnot => rw [h.same (mt h.none_iff.1 hnot)]

include hP hb

theorem makeAddrConcrete_after (hs : s.WellFormed) (m : MemArg Reg) :
    Ensures (body σ) exactly (T.makeAddrConcrete m) s fun _ s' _ =>
      s'.WellFormed ∧ T.peek s' = T.afterAddress (T.peek s) m := by
  have hreg {s : Shadow} (hs : s.WellFormed) (r : Reg) :
      Ensures (body σ) exactly (T.getExprFromAddrReg r) s fun _ s' _ => s'.WellFormed ∧
        T.peek s' = if r ≠ T.pin.regInvalid then T.afterRead (T.peek s) (.reg r) else T.peek s := by
    unfold getExprFromAddrReg
    split
    next =>
        exact (getExprFromReg_reads hP hb hs r).mono fun _ _ _ h => ⟨h.2.wellFormed, h.2.peek_eq⟩
    next => exact .ret ⟨hs, rfl⟩
  have hexpr : Ensures (body σ) exactly (T.getAddrExpr m.base m.index m.disp m.scale) s
      fun _ s' _ =>
      s'.WellFormed ∧ T.peek s' = T.afterAddress (T.peek s) m := by
    refine (hreg hs m.base).bind ?_
    rintro _ s₁ _ ⟨h₁, hpeek₁⟩
    refine (hreg h₁ m.index).bind ?_
    rintro _ s₂ _ ⟨h₂, hpeek₂⟩
    exact Ensures.lift (P := fun _ => True) (fun _ _ _ _ _ => trivial)
      fun _ _ => ⟨h₂, by rw [hpeek₂, hpeek₁, afterAddress]⟩
  refine Ensures.bind hexpr fun x s' _ h => ?_
  cases x with
  | none => exact .ret h
  | some e => exact Ensures.tell h

/-- Nothing comes of two operands if nothing comes of either. -/
theorem pair_answers (hs : s.WellFormed) (a b : Operand Reg) (f g : Option Expr → Build Expr) :
    Ensures (body σ) exactly (do
      let x ← a.get T
      let y ← b.get T
      (fixPair x y f g : Build _)) s fun z _ _ => z = none ↔ ¬ T.Answers (T.peek s) [a, b] := by
  refine Ensures.bind (get_carries hb hs hP a) fun x s₁ _ ⟨hx, _⟩ => ?_
  refine Ensures.bind (get_carries hb hx.wellFormed hP b) fun y s₂ _ ⟨hy, _⟩ => ?_
  have hnone : (x = none ∧ y = none) ↔ ¬ T.Answers (T.peek s) [a, b] := by
    rw [Answers, Answers, Answers, ← hx.peek_eq, hx.none_iff, hy.none_iff]
    tauto
  have hfix : Yields (body σ) exactly (fixPair x y f g) fun z => z = none ↔
      x = none ∧ y = none := by
    unfold fixPair
    split
    next => exact .ret (by simp)
    next h =>
        refine Yields.bind (P := fun _ => True) (fun _ _ _ _ _ => trivial) fun _ _ => ?_
        exact Yields.bind (P := fun _ => True) (fun _ _ _ _ _ => trivial) fun _ _ => .ret (by grind)
  exact Ensures.lift hfix fun z hz => hz.trans hnone

/-- An immediate comes with an expression of the operand. -/
theorem imm_answers (hs : s.WellFormed) (a : Operand Reg) (imm : Addr) :
    Ensures (body σ) exactly (do
      match ← a.get T with
      | none => return none
      | some eDst => do
          let eSrc ← T.fixImmExpr none imm eDst.bits
          return some (eDst, eSrc)) s fun z _ _ => z = none ↔ ¬ T.Answers (T.peek s) [a] := by
  refine Ensures.bind (get_carries hb hs hP a) fun x s₁ _ ⟨hx, _⟩ => ?_
  have hnone : x = none ↔ ¬ T.Answers (T.peek s) [a] := by
    rw [Answers, Answers, hx.none_iff]
    tauto
  cases x with
  | none => exact .ret (iff_of_true rfl (hnone.1 rfl))
  | some e =>
      refine Ensures.lift_bind (P := fun _ => True) (fun _ _ _ _ _ => trivial) fun _ _ => .ret ?_
      exact iff_of_false nofun (mt hnone.2 nofun)

end Answers

end Process

/-- A run that was looked at, of a handler that returns. -/
theorem exists_run {Reg α : Type} {σ : Session} {p : Handler Reg α} {s : Shadow} {w : World}
    {Q : α → Shadow → List (Request Reg) → Prop} {n : Nat}
    (h : Stateful.Achieves (body σ) exactly p s Q)
    (htrace : (((p s).trace (execTrace (body σ) n) w).map fun x =>
      x.2.2.all fun m => foldsNothing m) = some true) :
    ∃ a s' l w', Runs (body σ) (p s) w (a, s', l) w' ∧ Q a s' l := by
  obtain ⟨⟨a, s', l⟩, w', hr, -, hQ⟩ := h w trivial (safe_exactly htrace)
  exact ⟨a, s', l, w', hr, hQ⟩

/-! ### Registers of x86-64 -/

namespace X86Reg

variable {cells : List Nat} {k : Place X86Reg} {e : Expr}

/-- Without a page every expression is one of a register. -/
theorem exists_regs_of_peek {s : Shadow} (hm : s.memory = Memory.onePage)
    (h : process.peek s k = some e) : ∃ addr, s.regs addr = some e := by
  cases k with
  | mem addr =>
      have h : s.memory.peek addr = some e := h
      rw [hm, onePage_peek] at h
      cases h
  | reg f i =>
      simp only [Process.peek, Pin.peekByte] at h
      split at h
      next =>
          split at h
          next base _ => exact ⟨base + i, h⟩
          next => cases h
      next => cases h

theorem peek_shadow (h : process.peek (shadow cells) k = some e) : e = .read 0 := by
  obtain ⟨addr, h⟩ := exists_regs_of_peek rfl h
  have h : (if addr ∈ cells then some (Expr.read 0) else none) = some e := h
  split at h
  · exact (Option.some.inj h).symm
  · cases h

/-- The registers of the process have cells. -/
theorem tracked {r : X86Reg} (hr : r ∉ [.invalid, .rflags]) : process.Tracked r := by
  refine ⟨?_, ?_⟩
  · revert r
    intro r
    cases r <;> decide +kernel
  · cases r <;> decide

theorem shadow_init_wellFormed (cells : List Nat) : (shadow cells).WellFormed :=
  shadow_wellFormed cells .init

theorem shadow_consistent (cells : List Nat) :
    process.Consistent quietSession.input (process.peek (shadow cells)) := by
  intro k e he
  rw [peek_shadow he]
  cases k <;> rfl

/-- An input byte at an operand is not nothing. -/
theorem shadow_not_idle {o : Operand X86Reg} {os : List (Operand X86Reg)} {v : ShadowMap X86Reg}
    (ho : o ∈ os) (h : ∃ k ∈ o.places process, process.peek (shadow cells) k = some (.read 0)) :
    ¬ process.Idle (process.peek (shadow cells)) v os := by
  obtain ⟨k, hk, he⟩ := h
  exact fun hidle => hidle.not_symbolic ho hk ⟨_, he, by decide⟩

end X86Reg

end Qsym
