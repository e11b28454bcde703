import Qsym.Concolic.Machine
import Qsym.Flags.Condition
import Qsym.Flags.Recorded
import Qsym.Instrument.EffectiveAddress

/-!
# Qsym.Concolic.Describes

What the shadow says about **other inputs**. The tool watches one run of the program, on the input
of its session. The shadow `Portrays` the machines that other inputs lead to if at each place the
expression has the byte of the machine, and where there is none, all machines agree with the one
that is watched. Writing to the machines and to the shadow keeps this, byte by byte
(`Portrays.write`).

The flags are portrayed by the operations that were set: none since they were let go of, in which
case they are the same on all inputs, or the last one decides them (`FlagHistory.Portrays`).
-/

namespace Qsym

open Procedure Qsym.Expr X86

namespace Process

variable {Reg : Type} [DecidableEq Reg] (T : Process Reg)

omit [DecidableEq Reg] in
/-- On the inputs of `E` the shadow map shows the bytes of the machines. -/
def Portrays (input : Input) (E : Input → Prop) (v : ShadowMap Reg) (M : Input → Machine Reg) :
    Prop :=
  ∀ ρ, E ρ → ∀ k, Stands input (v k) (fun ρ => ((M ρ).bytes k).toNat) ρ

variable {T} {input : Input} {E E' : Input → Prop} {v v' v₁ : ShadowMap Reg}
  {M : Input → Machine Reg}
variable {o o' : Operand Reg} {k : Place Reg} {ρ : Input}

namespace Portrays

omit [DecidableEq Reg]

theorem mono (h : Portrays input E v M) (hE : ∀ ρ, E' ρ → E ρ) : Portrays input E' v M :=
  fun ρ hρ => h ρ (hE ρ hρ)

/-- Only the machines of the inputs of `E` matter. -/
theorem congr {M' : Input → Machine Reg} (h : Portrays input E v M) (hE : E input)
    (hM : ∀ ρ, E ρ → M ρ = M' ρ) : Portrays input E v M' := by
  intro ρ hρ k
  have hk := h ρ hρ k
  unfold Stands at hk ⊢
  simpa only [hM ρ hρ, hM input hE] using hk

/-- For its own input the shadow shows what the process has. -/
theorem consistent (h : Portrays input E v M) (hE : E input) :
    (T.running (M input)).Consistent input v := by
  intro k e he
  have hk := h input hE k
  rw [he] at hk
  cases k <;> exact hk

theorem byteValue (h : Portrays input E v M) (hρ : E ρ) (k : Place Reg) :
    (T.running (M input)).byteValue v ρ k = ((M ρ).bytes k).toNat := by
  have hk := h ρ hρ k
  unfold Process.byteValue
  cases hv : v k with
  | none =>
      rw [hv] at hk
      cases k <;> exact Eq.symm hk
  | some e =>
      rw [hv] at hk
      exact hk

/-- Operands have the values that the machines read. -/
theorem bv_eq (h : Portrays input E v M) (hρ : E ρ) (o : Operand Reg) :
    o.bv (T.running (M input)) v ρ = (M ρ).read T o := by
  have hbytes : (o.places T).map ((T.running (M input)).byteValue v ρ) =
      (o.places T).map fun k => ((M ρ).bytes k).toNat :=
    List.map_congr_left fun k _ => h.byteValue hρ k
  exact congrArg (fun l => BitVec.ofNat (o.size T * 8) (Bytes.littleEndian l)) hbytes

/-- What is not symbolic is the same on all inputs. -/
theorem eq_of_not_symbolic (h : Portrays input E v M) (hE : E input) (hρ : E ρ)
    (hk : ¬ Symbolic v k) : (M ρ).bytes k = (M input).bytes k := by
  apply BitVec.eq_of_toNat_eq
  have hkρ := h ρ hρ k
  have hinput := h input hE k
  cases hv : v k with
  | none =>
      rw [hv] at hkρ
      exact hkρ
  | some e =>
      rw [hv] at hkρ hinput
      have hdeps : e.getDeps = ∅ := by
        by_contra hne
        exact hk ⟨e, hv, hne⟩
      exact hkρ.symm.trans ((Expr.value_congr fun i hi => by simp [hdeps] at hi).trans hinput)

theorem fades (h : Portrays input E v M) (hE : E input) (hfades : Fades v v') :
    Portrays input E v' M := by
  intro ρ hρ k
  rcases hfades k with heq | ⟨hnot, hnone⟩
  · rw [heq]
    exact h ρ hρ k
  · rw [hnone]
    exact congrArg BitVec.toNat (h.eq_of_not_symbolic hE hρ hnot)

theorem read_eq_of_not_symbolic (h : Portrays input E v M) (hE : E input) (hρ : E ρ)
    (ho : ∀ k ∈ o.places T, ¬ Symbolic v k) : (M ρ).read T o = (M input).read T o :=
  Machine.read_congr fun k hk => h.eq_of_not_symbolic hE hρ (ho k hk)

end Portrays

/-! ### Writing -/

variable {w : Input → BitVec (o.size T * 8)}

/-- The machines and the shadow are written at the same operand. -/
theorem Portrays.write (h : Portrays input E v M) (hP : T.pin.Documented) (ho : o.size T ≤ 2 ^ 64)
    (hplace : ∀ ρ, E ρ → ∀ i < o.size T,
      Stands input (v' (o.place T i)) (fun ρ => Bytes.byte (w ρ).toNat i) ρ)
    (hupper : ∀ k ∈ o.upper T, v' k = none) (hother : ∀ k, k ∉ o.written T → v' k = v k) :
    Portrays input E v' fun ρ => (M ρ).write T o (w ρ) := by
  intro ρ hρ k
  by_cases hk : k ∈ o.written T
  · rcases List.mem_append.1 (Operand.written_eq (T := T) o ▸ hk) with hplaces | hup
    · obtain ⟨i, hi, rfl⟩ := Operand.mem_places_iff.1 hplaces
      simp only [Machine.write_place ho hi]
      exact hplace ρ hρ i hi
    · rw [hupper k hup]
      show (((M ρ).write T o (w ρ)).bytes k).toNat = (((M input).write T o (w input)).bytes k).toNat
      rw [Machine.write_upper hP hup, Machine.write_upper hP hup]
  · rw [hother k hk]
    simp only [Machine.write_other hk]
    exact h ρ hρ k

/-- A result was put into the shadow. -/
theorem Portrays.puts (h : Portrays input E v₁ M) (hP : T.pin.Documented) (ho : o.size T ≤ 2 ^ 64)
    {u : Input → BitVec (o.size T * 8)} (hputs : T.Puts v₁ v' o u) (hw : ∀ ρ, E ρ → u ρ = w ρ) :
    Portrays input E v' fun ρ => (M ρ).write T o (w ρ) := by
  refine h.write hP ho (fun ρ hρ i hi => ?_) hputs.upper hputs.other
  obtain ⟨e, he, hval⟩ := hputs.shows ρ i hi
  rw [he]
  exact hval.trans (by rw [hw ρ hρ])

/-- The same was written on all inputs, and nothing is left in the shadow. -/
theorem Portrays.write_none (h : Portrays input E v M) (hP : T.pin.Documented)
    (ho : o.size T ≤ 2 ^ 64) (hnone : ∀ k ∈ o.written T, v' k = none)
    (hother : ∀ k, k ∉ o.written T → v' k = v k) (hw : ∀ ρ, E ρ → w ρ = w input) :
    Portrays input E v' fun ρ => (M ρ).write T o (w ρ) := by
  have hmem : ∀ k, k ∈ o.places T ∨ k ∈ o.upper T → v' k = none := fun k hk =>
    hnone k (Operand.written_eq (T := T) o ▸ List.mem_append.2 hk)
  refine h.write hP ho (fun ρ hρ i hi => ?_) (fun k hk => hmem k (.inr hk)) hother
  rw [hmem _ (.inl (Operand.mem_places_iff.2 ⟨i, hi, rfl⟩))]
  show Bytes.byte (w ρ).toNat i = Bytes.byte (w input).toNat i
  rw [hw ρ hρ]

omit [DecidableEq Reg] in
/-- The bytes of what is read. -/
theorem byte_read {M : Machine Reg} {i : Nat} (hi : i < o.size T) :
    Bytes.byte (M.read T o).toNat i = (M.bytes (o.place T i)).toNat := by
  have hlength : i < ((o.places T).map fun k => (M.bytes k).toNat).length := by
    simpa [Operand.places_eq] using hi
  rw [Machine.toNat_read, Bytes.byte_mod _ hi, Bytes.byte_littleEndian (fun b hb => ?_) hlength]
  · simp [Operand.places_eq]
  · obtain ⟨k, -, rfl⟩ := List.mem_map.1 hb
    exact (M.bytes k).isLt

/-- The bytes of one operand came to another. -/
theorem Portrays.copies (h : Portrays input E v M) (hP : T.pin.Documented) (ho : o.size T ≤ 2 ^ 64)
    (hsize : o'.size T = o.size T) (hplace : ∀ i < o.size T, v' (o.place T i) = v (o'.place T i))
    (hupper : ∀ k ∈ o.upper T, v' k = none) (hother : ∀ k, k ∉ o.written T → v' k = v k) :
    Portrays input E v' fun ρ => (M ρ).write T o (((M ρ).read T o').setWidth _) := by
  refine h.write hP ho (fun ρ hρ i hi => ?_) hupper hother
  rw [hplace i hi]
  have hbyte (ρ : Input) : Bytes.byte (((M ρ).read T o').setWidth (o.size T * 8)).toNat i =
      ((M ρ).bytes (o'.place T i)).toNat := by
    rw [BitVec.toNat_setWidth, Bytes.byte_mod _ hi]
    exact byte_read (hsize ▸ hi)
  simp only [hbyte]
  exact h ρ hρ _

end Process

/-! ### Flags -/

/-- The operation defines every flag that a jump looks at. -/
def OpKind.DefinesAll (k : OpKind) : Prop :=
  k = .add ∨ k = .sub ∨ k = .logic

theorem OpKind.DefinesAll.defines {k : OpKind} (h : k.DefinesAll) {f : Eflag} (hf : f ≠ .af) :
    k.defines f = true := by
  rcases h with rfl | rfl | rfl <;> cases f <;> first | rfl | exact absurd rfl hf

namespace FlagHistory

/-- On the inputs of `E` the sets are of operations that define every flag. -/
structure Plain (E : Input → Prop) (h : FlagHistory) : Prop where
  kinds : ∀ k ∈ kinds h, k.DefinesAll
  performed : ∀ ρ, E ρ → ∃ ops, Performed ρ h ops

/-- The flags of the machines are those of the last operation, or, if none is known, the same on
all inputs. -/
inductive Portrays (input : Input) (E : Input → Prop) (flags : Input → Eflag → Bool) :
    FlagHistory → Prop
  | same {h : FlagHistory} : Plain E h → (∀ f, f ≠ .af → (eflags h).validSet.has f = false) →
      (∀ ρ, E ρ → ∀ f, f ≠ .af → flags ρ f = flags input f) → Portrays input E flags h
  | set {fs : FlagSet} {h : FlagHistory} (op : Input → Operation) : Plain E h → fs.kind.DefinesAll →
      (∀ ρ, E ρ → Performs ρ fs (op ρ)) →
      (∀ ρ, E ρ → ∀ f, f ≠ .af → (op ρ).flag f = some (flags ρ f)) →
      Portrays input E flags (.set fs :: h)

variable {input : Input} {E E' : Input → Prop} {flags flags' : Input → Eflag → Bool}
  {h : FlagHistory}

theorem Plain.mono (hh : Plain E h) (hE : ∀ ρ, E' ρ → E ρ) : Plain E' h :=
  ⟨hh.kinds, fun ρ hρ => hh.performed ρ (hE ρ hρ)⟩

theorem Plain.set (hh : Plain E h) {fs : FlagSet} {op : Input → Operation} (hk : fs.kind.DefinesAll)
    (hop : ∀ ρ, E ρ → Performs ρ fs (op ρ)) : Plain E (.set fs :: h) where
  kinds := List.forall_mem_cons.2 ⟨hk, hh.kinds⟩
  performed ρ hρ := by
    obtain ⟨ops, hops⟩ := hh.performed ρ hρ
    exact ⟨op ρ :: ops, .cons (hop ρ hρ) hops⟩

namespace Portrays

theorem plain (hh : Portrays input E flags h) : Plain E h := by
  cases hh with
  | same hplain => exact hplain
  | set op hplain hk hop => exact hplain.set hk hop

theorem mono (hh : Portrays input E flags h) (hE : ∀ ρ, E' ρ → E ρ) :
    Portrays input E' flags h := by
  cases hh with
  | same hplain hforgotten hsame =>
      exact .same (hplain.mono hE) hforgotten fun ρ hρ => hsame ρ (hE ρ hρ)
  | set op hplain hk hop hflags =>
      exact .set op (hplain.mono hE) hk (fun ρ hρ => hop ρ (hE ρ hρ)) fun ρ hρ => hflags ρ (hE ρ hρ)

theorem congr (hh : Portrays input E flags h) (hE : E input)
    (hflags : ∀ ρ, E ρ → flags ρ = flags' ρ) :
    Portrays input E flags' h := by
  cases hh with
  | same hplain hforgotten hsame =>
      refine .same hplain hforgotten fun ρ hρ f hf => ?_
      rw [← hflags ρ hρ, ← hflags input hE]
      exact hsame ρ hρ f hf
  | set op hplain hk hop hset => exact .set op hplain hk hop fun ρ hρ => hflags ρ hρ ▸ hset ρ hρ

/-- The flags are let go of. -/
theorem invalidate (hh : Portrays input E flags h) {k : OpKind} (hk : k.DefinesAll)
    (hsame : ∀ ρ, E ρ → ∀ f, f ≠ .af → flags' ρ f = flags' input f) :
    Portrays input E flags' (.invalidate k :: h) := by
  refine .same ⟨hh.plain.kinds, hh.plain.performed⟩ (fun f hf => ?_) hsame
  show ((eflags h).invalidate k).validSet.has f = false
  rw [Eflags.has_invalidate, OpKind.touches_eq, hk.defines hf, Bool.true_or, Bool.not_true,
    Bool.and_false]

end Portrays

end FlagHistory

/-! ### Conditions -/

theorem JccKind.holds_congr {kind : JccKind} {flags flags' : Eflag → Option Bool}
    (h : ∀ f, f ≠ .af → flags f = flags' f) : kind.holds flags = kind.holds flags' := by
  have hcf := h .cf nofun
  have hpf := h .pf nofun
  have hzf := h .zf nofun
  have hsf := h .sf nofun
  have hof := h .of nofun
  cases kind <;> simp only [JccKind.holds, hcf, hpf, hzf, hsf, hof]

/-- Every condition looks at some flag, and none at the auxiliary one. -/
theorem JccKind.exists_flag (kind : JccKind) : ∃ f, f ∈ kind.flags := by
  cases kind <;> exact ⟨_, List.mem_cons_self⟩

theorem JccKind.ne_af {kind : JccKind} {f : Eflag} (hf : f ∈ kind.flags) : f ≠ .af := by
  rintro rfl
  cases kind <;> simp [JccKind.flags] at hf

theorem Eflags.isValid_of_has {e : Eflags} {kind : JccKind}
    (h : ∀ f ∈ kind.flags, e.validSet.has f = true) :
    e.isValid kind = true := by
  have hbit (f : Eflag) (hf : f ∈ kind.flags) : e.validSet &&& f.mask = f.mask := by
    rw [EflagSet.mask_eq_twoPow, BitVec.and_twoPow,
      if_pos ((EflagSet.has_eq_getLsbD ..).symm.trans (h f hf))]
  rw [isValid, beq_iff_eq]
  cases kind <;> simp_all [JccKind.getEflags, JccKind.flags, BitVec.and_or_distrib_left]

namespace FlagHistory

open Process

variable {Reg : Type} {input : Input} {E : Input → Prop} {h : FlagHistory} {M : Input → Machine Reg}
variable {σ : Session} {kind : JccKind} {inv : Bool}

/-- Nothing is known of the flags. -/
theorem isValid_of_forgotten (hforgotten : ∀ f, f ≠ .af → (eflags h).validSet.has f = false) :
    (eflags h).isValid kind = false := by
  obtain ⟨f, hf⟩ := kind.exists_flag
  by_contra hvalid
  have hhas := has_of_isValid (Bool.eq_true_of_not_eq_false hvalid) hf
  exact nomatch hhas.symm.trans (hforgotten f (JccKind.ne_af hf))

/-- What a jump is told: its condition for every input, or nothing, if it is the same on all. -/
def Tells (input : Input) (E : Input → Prop) (M : Input → Machine Reg) (kind : JccKind) (inv : Bool)
    (x : Option Expr) : Prop :=
  match x with
  | some e => e.IsBool ∧ ∀ ρ, E ρ → e.truth ρ = (M ρ).taken kind inv
  | none => ∀ ρ, E ρ → (M ρ).taken kind inv = (M input).taken kind inv

theorem Portrays.computeJcc (hh : Portrays input E (fun ρ => (M ρ).flags) h) (hE : E input) :
    Yields (body σ) anyCall ((eflags h).computeJcc SymbolicExprBuilder.chain kind inv)
      (Tells input E M kind inv) := by
  cases hh with
  | same hplain hforgotten hsame =>
      rw [Eflags.computeJcc, isValid_of_forgotten hforgotten]
      refine .ret fun ρ hρ => ?_
      have hflags : kind.holds _ = kind.holds _ :=
        JccKind.holds_congr fun f hf => congrArg some (hsame ρ hρ f hf)
      simp only [Machine.taken, hflags]
  | @set fs h op hplain hk hop hflags =>
      have hdefines (f : Eflag) (hf : f ∈ kind.flags) : fs.kind.defines f = true :=
        hk.defines (JccKind.ne_af hf)
      have hvalid : (eflags (.set fs :: h)).isValid kind = true := by
        refine Eflags.isValid_of_has fun f hf => ?_
        show ((eflags h).set fs.kind fs.result fs.dst fs.src).validSet.has f = true
        rw [Eflags.has_set, hdefines f hf, Bool.or_true]
      -- nothing was set since the operation that decides
      have hreach (f : Eflag) (hf : f ∈ kind.flags) : InReach (.set fs :: h) f := by
        have hage : age (.set fs :: h) f = 0 := by
          simp [age, kinds, sets, List.findIdx_cons, hdefines f hf]
        exact .inl (hage.trans_le (Nat.zero_le _))
      have hanswerable : Answerable (.set fs :: h) kind := by
        by_cases hz : kind = .z
        · refine .inl ⟨fs.kind, rfl, ?_⟩
          rw [hz, fastAnswers, OpKind.touches_eq, hk.defines (f := .zf) (by decide), Bool.true_or]
        · exact .inr ⟨hz, hreach⟩
      have hsays (ρ : Input) (hρ : E ρ) : Yields (body σ) anyCall
          ((eflags (.set fs :: h)).computeJcc SymbolicExprBuilder.chain kind inv)
          (Says (· = ρ) fun _ => (M ρ).taken kind inv) := by
        obtain ⟨ops, hops⟩ := hplain.performed ρ hρ
        have hperformed : Performed ρ (.set fs :: h) (op ρ :: ops) := .cons (hop ρ hρ) hops
        obtain ⟨c, hc, hbuilds⟩ := computeJcc_builds (chain_soundSimply σ _) hperformed hvalid inv
          hanswerable
        have hlast : kind.holds (fun f => some ((M ρ).flags f)) = some c := by
          refine (JccKind.holds_congr fun f hf => ?_).trans hc
          simp [lastFlag, hflags ρ hρ f hf]
        rw [Machine.taken, hlast]
        exact .of_total hbuilds
      intro w x w' hsafe hrun
      obtain ⟨e, rfl, he⟩ := hsays input hE w x w' hsafe hrun
      refine ⟨he.isBool, fun ρ hρ => ?_⟩
      obtain ⟨_, hx, htruth⟩ := hsays ρ hρ w _ w' hsafe hrun
      obtain rfl := Option.some.inj hx
      exact htruth.truth ρ rfl

end FlagHistory

end Qsym
