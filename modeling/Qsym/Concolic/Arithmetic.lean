import Qsym.Concolic.Moves
import Qsym.Instrument.Logical

/-!
# Qsym.Concolic.Arithmetic

The arithmetic and logical instructions keep the shadow describing the machines, and the flags that
are kept portraying theirs. If an operand is symbolic then the destination gets an expression of the
result, and the flags are those of the operation. If none is, then nothing is left of the flags, and
the destination is left alone: its bytes were cleared when it was read, and the upper half of a
32-bit register must be empty (`Instruction.Clears`).
-/

namespace Qsym

open Procedure Qsym.Expr X86
open SymbolicExprBuilder (chain)

namespace Alu

/-- What `getOpKindBinary` says. -/
def opKind : Alu → OpKind
  | add => .add
  | sub | cmp => .sub
  | and | test | or | xor => .logic

theorem getOpKindBinary_kind {Reg : Type} (op : Alu) :
    (getOpKindBinary op.kind : Handler Reg OpKind) = pure op.opKind := by
  cases op <;> rfl

theorem definesAll (op : Alu) : op.opKind.DefinesAll := by
  cases op <;> simp [OpKind.DefinesAll, opKind]

variable {n : Nat} {d s : Input → BitVec n} {er ed es : Expr}

/-- What is set is the operation. -/
theorem performs (op : Alu) (hn : 8 ≤ n) (hr : Expresses n (fun ρ => op.kind.apply (d ρ) (s ρ)) er)
    (hd : Expresses n d ed) (hs : Expresses n s es) (ρ : Input) :
    Performs ρ ⟨op.opKind, some er, some ed, some es⟩ (op.operation (d ρ) (s ρ)) := by
  cases op with
  | add => exact .add hn (hr.at ρ) (hd.at ρ) (hs.at ρ)
  | sub | cmp => exact .sub hn (hr.at ρ) (hd.at ρ) (hs.at ρ)
  | and | test | or | xor => exact .logic hn (hr.at ρ)

end Alu

namespace Process

open Handler Stateful

variable {Reg : Type} [DecidableEq Reg] {T : Process Reg} {σ : Session}
variable {E : Input → Prop} {M : Input → Machine Reg} {s s' : Shadow} {o d : Operand Reg}

/-- The flags of the machines, and what is kept of them, are others. -/
theorem Describes.with_flags (hd : T.Describes σ E M s) {flags : Input → Eflag → Bool}
    {h : FlagHistory}
    (hh : FlagHistory.Portrays σ.input E flags h) :
    T.Describes σ E (fun ρ => { M ρ with flags := flags ρ })
      { s with eflags := FlagHistory.eflags h } where
  input := hd.input
  wellFormed := ⟨hd.wellFormed.regs, hd.wellFormed.memory⟩
  bytes := hd.bytes
  pointer := hd.pointer
  flags := ⟨h, rfl, hh⟩

/-- What a machine does where both operands are the same on all inputs. -/
theorem alu_idle (hd : T.Describes σ E M s) (hP : T.pin.Documented) (op : Alu)
    (hd8 : d.size T ≤ 2 ^ 64)
    (hapart : ∀ k ∈ T.pointerPlaces, k ∉ d.written T)
    (hempty : op.write = true → ∀ k ∈ d.written T, T.peek s k = none)
    {w : Input → BitVec (d.size T * 8)} (hw : ∀ ρ, E ρ → w ρ = w σ.input)
    (hread : ∀ ρ, E ρ → (M ρ).read T d = (M σ.input).read T d) :
    T.Describes σ E (fun ρ => (M ρ).alu T op d (w ρ))
      { s with eflags := s.eflags.invalidate op.opKind } := by
  obtain ⟨h, heq, hh⟩ := hd.flags
  have hwritten : T.Describes σ E (fun ρ => if op.write then
      (M ρ).write T d (op.kind.apply ((M ρ).read T d) (w ρ)) else M ρ) s := by
    cases hwrite : op.write with
    | false => exact hd
    | true =>
        refine hd.write hapart hd.wellFormed rfl ?_ fun _ _ hk => hk
        refine hd.bytes.write_none hP hd8 (hempty hwrite) (fun _ _ => rfl) fun ρ hρ => ?_
        rw [hread ρ hρ, hw ρ hρ]
  have hinvalid : FlagHistory.Portrays σ.input E (fun ρ f =>
      ((op.operation ((M ρ).read T d) (w ρ)).flag f).getD ((M ρ).flags f))
        (.invalidate op.opKind :: h) := by
    refine hh.invalidate op.definesAll fun ρ hρ f hf => ?_
    have hsome := op.flag_isSome ((M σ.input).read T d) (w σ.input) hf
    obtain ⟨v, hv⟩ := Option.isSome_iff_exists.1 hsome
    rw [hread ρ hρ, hw ρ hρ, hv]
    rfl
  rw [heq]
  exact hwritten.with_flags hinvalid

/-- What it does where an operand is symbolic. -/
theorem alu_computed (hd : T.Describes σ E M s) (hP : T.pin.Documented)
    (hb : T.builder = chain) (op : Alu)
    (hsize : d.size T ∈ [1, 2, 4, 8]) (hapart : ∀ k ∈ T.pointerPlaces, k ∉ d.written T)
    {u v w : Input → BitVec (d.size T * 8)} (hu : ∀ ρ, E ρ → u ρ = (M ρ).read T d)
    (hv : ∀ ρ, E ρ → v ρ = w ρ) {ed es : Expr} (hed : Expresses (d.size T * 8) u ed)
    (hes : Expresses (d.size T * 8) v es) :
    Ensures (body σ) exactly (do
      let res ← T.doBinary op.kind op.opKind ed es
      if op.write then d.set T (some res)) s fun _ s' _ =>
        T.Describes σ E (fun ρ => (M ρ).alu T op d (w ρ)) s' := by
  simp only [List.mem_cons, List.not_mem_nil, or_false] at hsize
  obtain ⟨h, heq, hh⟩ := hd.flags
  have hnot : op.kind ≠ .sdiv ∧ op.kind.isLogical = false := by cases op <;> exact ⟨by decide, rfl⟩
  have hres : Builds σ exactly (T.builder.createBinaryExpr op.kind ed es) _ :=
    hb ▸ hed.binary_builds hnot.1 hnot.2 hes
  have hdo : Achieves (body σ) exactly (T.doBinary op.kind op.opKind ed es) s fun res s₁ _ =>
      s₁ = { s with eflags := s.eflags.set op.opKind (some res) (some ed) (some es) } ∧
        Expresses (d.size T * 8) (fun ρ => op.kind.apply (u ρ) (v ρ)) res :=
    Achieves.lift_bind hres fun res hres => onEflags_bind (.ret ⟨rfl, hres⟩)
  refine Ensures.bind hdo.ensures ?_
  rintro res s₁ _ ⟨hs₁, hres⟩
  have hperf := op.performs (by omega) hres hed hes
  have hset : FlagHistory.Portrays σ.input E (fun ρ f =>
      ((op.operation ((M ρ).read T d) (w ρ)).flag f).getD ((M ρ).flags f))
      (.set ⟨op.opKind, some res, some ed, some es⟩ :: h) := by
    refine .set (fun ρ => op.operation (u ρ) (v ρ)) hh.plain op.definesAll (fun ρ _ => hperf ρ) ?_
    intro ρ hρ f hf
    obtain ⟨x, hx⟩ := Option.isSome_iff_exists.1 (op.flag_isSome (u ρ) (v ρ) hf)
    rw [← hu ρ hρ, ← hv ρ hρ, hx]
    rfl
  have hflags := hd.with_flags hset
  have hs₁' : s₁ = { s with eflags := FlagHistory.eflags (.set ⟨op.opKind, some res, some ed,
      some es⟩ :: h) } := by
    rw [hs₁, heq]
    rfl
  rw [← hs₁'] at hflags
  cases hwrite : op.write with
  | false =>
      refine .ret ?_
      simp only [Machine.alu, hwrite]
      exact hflags
  | true =>
      refine ((set_puts hP hb (by omega) hres).and
        (set_wellFormed hP hb hflags.wellFormed hres)).mono ?_
      rintro _ s' _ ⟨⟨heflags, hputs⟩, hs'⟩
      simp only [Machine.alu, hwrite]
      exact hflags.of_puts hP (by omega) hapart hs' heflags hputs fun ρ hρ => by
        rw [hu ρ hρ, hv ρ hρ]

/-- The handler, with the operands that it reads. -/
theorem instrumentBinary_describes (hd : T.Describes σ E M s) (hP : T.pin.Documented)
    (hb : T.builder = chain)
    (op : Alu) (hsize : d.size T ∈ [1, 2, 4, 8]) (hapart : ∀ k ∈ T.pointerPlaces, k ∉ d.written T)
    {operands : Handler Reg (Option (Expr × Expr))} {os : List (Operand Reg)} (hdos : d ∈ os)
    {v w : Input → BitVec (d.size T * 8)}
    (hfetch : Fetches σ (T.running (M σ.input)) operands s os fun x =>
      Expresses (d.size T * 8) (d.bv (T.running (M σ.input)) (T.peek s)) x.1 ∧
        Expresses (d.size T * 8) v x.2)
    (hv : ∀ ρ, E ρ → v ρ = w ρ)
    (hw : (∀ o ∈ os, ¬ Depends T (T.peek s) o) → ∀ ρ, E ρ → w ρ = w σ.input)
    (hclears : op.write = true →
      (∀ k ∈ d.upper T, T.peek s k = none) ∨ ∃ o ∈ os, Depends T (T.peek s) o) :
    Ensures (body σ) exactly ((T.running (M σ.input)).instrumentBinary operands op.kind op.write
      fun x => d.set (T.running (M σ.input)) x) s fun _ s' _ =>
        T.Describes σ E (fun ρ => (M ρ).alu T op d (w ρ)) s' := by
  have hle : d.size T ≤ 2 ^ 64 := by
    simp only [List.mem_cons, List.not_mem_nil, or_false] at hsize
    omega
  rw [instrumentBinary, op.getOpKindBinary_kind]
  refine Ensures.bind (P := fun k s' _ => k = op.opKind ∧ s' = s) (.ret ⟨rfl, rfl⟩) ?_
  rintro _ _ _ ⟨hkind, hs'⟩
  rw [hkind, hs']
  refine computing_ensures hfetch (fun s₁ h₁ hidle => Yields.ret ?_) ?_
  · have hnot (o : Operand Reg) (ho : o ∈ os) : ¬ Depends T (T.peek s) o :=
      fun hdep => Exists.elim hdep fun k hk => hidle.not_symbolic ho hk.1 hk.2
    refine alu_idle (hd.aged h₁) hP op hle hapart (fun hwrite k hk => ?_) (hw hnot) fun ρ hρ => ?_
    · rw [Operand.written_eq, List.mem_append] at hk
      rcases hk with hk | hk
      · exact hidle.empty d hdos k hk
      · have hupper := (hclears hwrite).resolve_right fun hdep => hdep.elim fun o ho =>
            hnot o ho.1 ho.2
        exact hidle.fades.eq_none (hupper k hk)
    · exact hd.bytes.read_eq_of_not_symbolic hd.input hρ fun k hk hsym => hnot d hdos ⟨k, hk, hsym⟩
  · rintro s₁ x h₁ ⟨hdst, hsrc⟩
    exact alu_computed (hd.aged h₁) hP hb op hsize hapart
      (fun ρ hρ => hd.bytes.bv_eq hρ d) hv hdst hsrc

end Process

section Operands

variable {Reg : Type} [DecidableEq Reg] (T : Process Reg) (M : Machine Reg)

/-- The operands that are read for a source. -/
def Source.operands : Source Reg → List (Operand Reg)
  | loc l => [l.operand T M]
  | imm _ => []

/-- The shadow of an upper half that the processor clears is empty, or goes with the result. -/
def Instruction.Clears (s : Shadow) : Instruction Reg → Prop
  | alu op dst src => op.write = true →
      (∀ k ∈ (dst.operand T M).upper T, T.peek s k = none) ∨
        ∃ o ∈ dst.operand T M :: src.operands T M, Process.Depends T (T.peek s) o
  | _ => True

variable {T} {o : Operand Reg} {dst : Location Reg} {src : Source Reg} {op : Alu} {n : Nat}

theorem Instruction.effect_alu {M : Machine Reg} (h : dst.operand T M = o) :
    (alu op dst src).effect T M = M.alu T op o (src.value T M _) := by
  subst h
  rfl

end Operands

namespace Process

open Handler Stateful

variable {Reg : Type} [DecidableEq Reg] {T : Process Reg} {σ : Session}
variable {E : Input → Prop} {M : Input → Machine Reg} {s : Shadow}

/-- **Arithmetic and logic.** -/
theorem alu_describes (hd : T.Describes σ E M s) (hP : T.pin.Documented) (hptr : T.pin.Points)
    (hb : T.builder = chain) {op : Alu} {dst : Location Reg} {src : Source Reg}
    (hi : (Instruction.alu op dst src).Fits T)
    (hclears : (Instruction.alu op dst src).Clears T (M σ.input) s) :
    Ensures (body σ) exactly ((Instruction.alu op dst src).handler T (M σ.input)) s fun _ s' _ =>
      T.Describes σ (T.Follows σ E M (.alu op dst src))
        (fun ρ => (Instruction.alu op dst src).effect T (M ρ)) s' := by
  have hd := hd.follows (.alu op dst src)
  obtain ⟨hdst, hsrc⟩ := hi
  have hcongr (ρ : Input) (hρ : T.Follows σ E M (.alu op dst src) ρ) :
      dst.operand T (M ρ) = dst.operand T (M σ.input) := by
    refine hρ.operand fun m hm => ?_
    subst hm
    rfl
  -- the operands that are read, and the value of the source in them
  have hbinary {operands : Handler Reg (Option (Expr × Expr))}
      {v : Input → BitVec ((dst.operand T (M σ.input)).size T * 8)}
      (hfetch : Fetches σ (T.running (M σ.input)) operands s
        (dst.operand T (M σ.input) :: src.operands T (M σ.input)) fun x =>
          Expresses _ ((dst.operand T (M σ.input)).bv (T.running (M σ.input)) (T.peek s)) x.1 ∧
            Expresses _ v x.2)
      (hv : ∀ ρ, T.Follows σ E M (.alu op dst src) ρ → v ρ = src.value T (M ρ) _)
      (hsame : (∀ o ∈ src.operands T (M σ.input), ¬ Depends T (T.peek s) o) →
        ∀ ρ, T.Follows σ E M (.alu op dst src) ρ → v ρ = v σ.input) :
      Ensures (body σ) exactly ((T.running (M σ.input)).instrumentBinary operands op.kind op.write
        fun x => (dst.operand T (M σ.input)).set (T.running (M σ.input)) x) s fun _ s' _ =>
          T.Describes σ (T.Follows σ E M (.alu op dst src))
            (fun ρ => (Instruction.alu op dst src).effect T (M ρ)) s' := by
    have hsize : (dst.operand T (M σ.input)).size T ∈ [1, 2, 4, 8] := by
      rw [Location.size_operand]
      exact hdst.1
    have hdescribes := instrumentBinary_describes hd hP hb op hsize (hdst.apart hptr _)
      List.mem_cons_self hfetch hv (fun hnot ρ hρ => ?_) hclears
    · refine hdescribes.mono fun _ s' _ h' => h'.congr fun ρ hρ => ?_
      exact (Instruction.effect_alu (hcongr ρ hρ)).symm
    · rw [← hv ρ hρ, ← hv _ hd.input]
      exact hsame (fun o ho => hnot o (List.mem_cons_of_mem _ ho)) ρ hρ
  have hs := hd.wellFormed
  have hv := hd.consistent
  have hpos := hdst.size_pos
  cases src with
  | imm imm =>
      cases dst with
      | reg r =>
          exact hbinary (getExprFromRegImm_fetches (T := T.running (M σ.input)) hP hb hs hv r imm)
            (fun _ _ => BitVec.ofNat_toNat ..) fun _ _ _ => rfl
      | mem m =>
          exact hbinary (getExprFromMemImm_fetches (T := T.running (M σ.input)) hP
            hb hs hv hpos imm)
            (fun _ _ => BitVec.ofNat_toNat ..) fun _ _ _ => rfl
  | loc src =>
      by_cases hreg : ∀ m m', ¬ (dst = .mem m ∧ src = .mem m')
      swap
      · push Not at hreg
        obtain ⟨m, m', rfl, rfl⟩ := hreg
        exact Ensures.stop
      have hcongr' (ρ : Input) (hρ : T.Follows σ E M (.alu op dst (.loc src)) ρ) :
          src.operand T (M ρ) = src.operand T (M σ.input) := by
        refine hρ.operand fun m hm => ?_
        subst hm
        cases dst with
        | reg r => rfl
        | mem m' => exact absurd ⟨rfl, rfl⟩ (hreg m' m)
      have hpair {operands : Handler Reg (Option (Expr × Expr))}
          (hfetch : Fetches σ (T.running (M σ.input)) operands s
            [dst.operand T (M σ.input), src.operand T (M σ.input)]
            (PairOf (T.running (M σ.input)) (T.peek s) (dst.operand T (M σ.input))
              (src.operand T (M σ.input)))) :
          Ensures (body σ) exactly
            ((T.running (M σ.input)).instrumentBinary operands op.kind op.write
            fun x => (dst.operand T (M σ.input)).set (T.running (M σ.input)) x) s fun _ s' _ =>
              T.Describes σ (T.Follows σ E M (.alu op dst (.loc src)))
                (fun ρ => (Instruction.alu op dst (.loc src)).effect T (M ρ)) s' := by
        have hwidth : (src.operand T (M σ.input)).size T * 8 =
            (dst.operand T (M σ.input)).size T * 8 := by
          rw [Location.size_operand, Location.size_operand, hsrc.2]
        refine hbinary (hfetch.mono fun x hx => ⟨hx.1, hx.2.setWidth hwidth⟩) (fun ρ hρ => ?_)
          fun hnot ρ hρ => ?_
        · rw [Source.value_loc (hcongr' ρ hρ)]
          exact congrArg _ (hd.bytes.bv_eq hρ _)
        · rw [hd.bytes.bv_eq hρ, hd.bytes.bv_eq hd.input]
          refine congrArg _ (hd.bytes.read_eq_of_not_symbolic hd.input hρ fun k hk hsym => ?_)
          exact hnot _ List.mem_cons_self ⟨k, hk, hsym⟩
      cases dst with
      | reg r =>
          cases src with
          | reg src =>
              exact hpair (getExprFromRegReg_fetches (T := T.running (M σ.input)) hP hb hs hv r src)
          | mem m =>
              exact hpair (getExprFromRegMem_fetches (T := T.running (M σ.input)) hP hb hs hv r
                hsrc.1.size_pos)
      | mem m =>
          cases src with
          | reg src =>
              exact hpair (getExprFromMemReg_fetches (T := T.running (M σ.input)) hP
                hb hs hv hpos src)
          | mem m' => exact absurd ⟨rfl, rfl⟩ (hreg m m')

end Process

end Qsym
