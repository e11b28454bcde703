import Qsym.Flags.Architecture

/-!
# Qsym.Flags.Condition

The conditions of jumps. `computeFastJcc` compares the operands of a subtraction or a
result with zero, `computeSlowJcc` puts single flags together; both must come to the
condition of the machine on the flags left by the last operations that define them.
`Answerable` says when they do: the fast path always, the slow path if its flags are in
reach, except for `JCC_Z`, whose case falls through to that of `JCC_O`.
-/

namespace Qsym

open Procedure Qsym.Expr X86

namespace FlagHistory

variable {h : FlagHistory} {ops : List Operation} {ρ : Input}

/-- The history is one of operations of the machine, with their values under `ρ`. -/
abbrev Performed (ρ : Input) (h : FlagHistory) (ops : List Operation) : Prop :=
  List.Forall₂ (Performs ρ) (sets h) ops

/-- The last set that defines a flag is the last operation that does. -/
theorem lastFlag_of_find {f : Eflag} {ss : List FlagSet} (hp : List.Forall₂ (Performs ρ) ss ops)
    {s : FlagSet} (hs : ss.find? (fun s => s.kind.defines f) = some s) :
    ∃ op v, Performs ρ s op ∧ op.flag f = some v ∧ lastFlag ops f = some v := by
  induction hp with
  | nil => cases hs
  | @cons t op ss ops ht hp ih =>
      have hd := ht.defines_eq f
      cases hv : op.flag f with
      | none =>
          rw [hv] at hd
          rw [List.find?_cons_of_neg (by simp [hd])] at hs
          obtain ⟨op', v, hop, hf, hl⟩ := ih hs
          exact ⟨op', v, hop, hf, by rw [lastFlag, List.findSome?_cons, hv]; exact hl⟩
      | some v =>
          rw [hv] at hd
          rw [List.find?_cons_of_pos (by simp [hd])] at hs
          cases hs
          exact ⟨op, v, ht, hv, by rw [lastFlag, List.findSome?_cons, hv]⟩

section Flags

variable {σ : Session} {ok : MethodCall → Prop} {b : ExprBuilder}
variable (hb : SoundSimply σ ok (· = ρ) b) (hp : Performed ρ h ops)

include hb hp in
/-- A flag in reach is computed as the machine has it. -/
theorem computeFlag_builds {f : Eflag} (hv : (eflags h).validSet.has f = true)
    (hr : InReach h f) :
    ∃ v, lastFlag ops f = some v ∧
      Builds σ ok ((eflags h).computeFlag b f) (Says (· = ρ) fun _ => v) := by
  obtain ⟨s, hs, hfind, hop⟩ := (resolves_iff hv).2 hr
  obtain ⟨op, v, hperf, hf, hlast⟩ := lastFlag_of_find hp hs
  obtain ⟨p, hc, hbuilds⟩ := hperf.computes hb hf
  refine ⟨v, hlast, ?_⟩
  simp only [Eflags.computeFlag, hfind, hop, hc]
  exact Total.bind hbuilds fun e he => Total.ret ⟨e, rfl, he⟩

/-- The operation that was set last. -/
theorem head_of_valid {jcc : JccKind} (hv : (eflags h).isValid jcc = true) :
    ∃ s ss, sets h = s :: ss := by
  have hmem : ∃ f, f ∈ jcc.flags := by cases jcc <;> exact ⟨_, List.mem_cons_self⟩
  obtain ⟨f, hf⟩ := hmem
  obtain ⟨newer, s, older, hsets, -, -⟩ := split_of_has (has_of_isValid hv hf)
  cases newer with
  | nil => exact ⟨s, older, hsets⟩
  | cons t newer => exact ⟨t, newer ++ s :: older, hsets⟩

end Flags

/-! ### The fast path -/

/-- The fast path answers after an operation of this kind. -/
def fastAnswers (k : OpKind) : JccKind → Bool
  | .s => k.touches .sf
  | .z => k.touches .zf
  | .b | .be | .l | .le => k = .sub
  | .o | .p => false

theorem negate_holds (k : CompareKind) (inv : Bool) {n : Nat} (x y : BitVec n) :
    (if inv then k.negate else k).holds x y = (k.holds x y != inv) := by
  cases inv with
  | false => simp
  | true =>
      cases k with
      | equal | distinct => simp [CompareKind.negate, CompareKind.holds, bne]
      | _ =>
          simp only [CompareKind.negate, CompareKind.holds, BitVec.ult, BitVec.ule, BitVec.slt,
            BitVec.sle, if_true, Bool.bne_true, ← decide_not, Nat.not_lt, Nat.not_le,
            Int.not_lt, Int.not_le]

section Fast

variable {s : FlagSet} {ss : List FlagSet} (hsets : sets h = s :: ss)

include hsets

theorem opKinds_start : (eflags h).opKinds (Eflags.slot (eflags h).start) = some s.kind := by
  have h0 := opKinds_offset h (i := 0) (by decide)
  rw [show (eflags h).start - UInt32.ofNat 0 = (eflags h).start from UInt32.sub_zero _] at h0
  rw [h0, kindAt, if_pos (Nat.zero_le _), kinds, hsets]
  rfl

theorem operations_start : (eflags h).operations s.kind = s.operation := by
  rw [operations_eflags, hsets]
  simp

/-- Elsewhere the fast path has no answer. -/
theorem fastJcc_none {b : ExprBuilder} {jcc : JccKind} (hn : fastAnswers s.kind jcc = false)
    (inv : Bool) : (eflags h).computeFastJcc b jcc inv = .ret none := by
  rw [Eflags.computeFastJcc, opKinds_start hsets]
  have hzero : ∀ op, Eflags.computeZeroJcc b op s.kind jcc inv = .ret none := by
    intro op
    have hkind : Eflags.zeroKind s.kind.getEflags jcc inv = none := by
      rw [Eflags.zeroKind]
      cases jcc <;> simp_all [fastAnswers, OpKind.touches, EflagSet.has]
    rw [Eflags.computeZeroJcc, hkind]
  by_cases hk : s.kind = .sub
  · rw [hk] at hn
    cases jcc with
    | o | p => simp [hk, Eflags.subKind]
    | _ => cases hn
  · simp [hk, hzero]

variable {σ : Session} {ok : MethodCall → Prop} {b : ExprBuilder} {op : Operation}
variable (hb : SoundSimply σ ok (· = ρ) b) (hop : Performs ρ s op) (inv : Bool)

include hb hop in
/-- After a subtraction: the comparison of its operands. -/
theorem fastJcc_sub {jcc : JccKind} {k : CompareKind} (hs : s.kind = .sub)
    (hk : Eflags.subKind jcc = some k) :
    ∃ c, jcc.holds (lastFlag (op :: ops)) = some c ∧
      Builds σ ok ((eflags h).computeFastJcc b jcc inv) (Says (· = ρ) fun _ => c != inv) := by
  cases hop with
  | @sub n d c er ed es hn hr hd hc =>
      refine ⟨k.holds d c, ?_, ?_⟩
      · have hlast : ∀ f v, (Operation.sub n d c).flag f = some v →
            lastFlag (.sub n d c :: ops) f = some v := fun f v hf => by
          rw [lastFlag, List.findSome?_cons, hf]
        have hcf : lastFlag (.sub n d c :: ops) .cf = some (d.ult c) := hlast _ _ rfl
        have hzf : lastFlag (.sub n d c :: ops) .zf = some (d == c) :=
          (hlast _ _ rfl).trans (congrArg some (sub_beq_zero d c))
        have hsf := hlast .sf _ rfl
        have hof := hlast .of _ rfl
        cases jcc <;> cases hk <;>
          simp [JccKind.holds, hcf, hzf, hsf, hof, CompareKind.holds, msb_sub_bne_ssubOverflow,
            ult_or_beq, slt_or_beq]
      · have hset : (eflags h).operations .sub = .set .sub (some er) (some ed) (some es) :=
          operations_start hsets
        rw [Eflags.computeFastJcc, opKinds_start hsets]
        simp only [hset, hk, if_true, FlagOperation.set, FlagOperation.deref_some,
          Program.bind_eq, Program.ret_bind]
        refine Total.bind (hb.compare _ rfl hd hc) fun e he => Total.ret ⟨e, rfl, ?_⟩
        exact he.congr fun _ _ => negate_holds k inv d c
  | _ => cases hs

omit hsets in
/-- The operations that define the flags of their result. -/
theorem result_of_flag {f : Eflag} {v : Bool} (hop : Performs ρ s op) (hf : f = .zf ∨ f = .sf)
    (hv : op.flag f = some v) :
    ∃ n, ∃ r : BitVec n, ∃ er, s.result = some er ∧ Denotes (· = ρ) n (fun _ => r) er ∧
      resultFlag r f = some v := by
  obtain rfl | rfl := hf <;> cases hop <;> cases hv <;> exact ⟨_, _, _, rfl, ‹_›, rfl⟩

include hb hop in
/-- After an operation that defines the flag of its result: the comparison with zero. -/
theorem fastJcc_zero {jcc : JccKind} {v : Bool} {f : Eflag}
    (hj : jcc = .z ∧ f = .zf ∧ s.kind ≠ .sub ∨ jcc = .s ∧ f = .sf) (hv : op.flag f = some v) :
    jcc.holds (lastFlag (op :: ops)) = some v ∧
      Builds σ ok ((eflags h).computeFastJcc b jcc inv) (Says (· = ρ) fun _ => v != inv) := by
  have hlast : lastFlag (op :: ops) f = some v := by rw [lastFlag, List.findSome?_cons, hv]
  have htouch : s.kind.touches f = true := touches_of_defines (by rw [hop.defines_eq, hv]; rfl)
  have hflag : s.kind.getEflags &&& f.mask ≠ 0 := by
    simpa [OpKind.touches, EflagSet.has] using htouch
  have hfz : f = .zf ∨ f = .sf := by tauto
  obtain ⟨n, r, er, hres, hr, hrf⟩ := result_of_flag hop hfz hv
  have hzero : ∀ k : CompareKind, Eflags.zeroKind s.kind.getEflags jcc inv =
        some (if inv then k.negate else k) → k.holds r 0 = v →
      Builds σ ok (Eflags.computeZeroJcc b s.operation s.kind jcc inv)
        (Says (· = ρ) fun _ => v != inv) := by
    intro k hk hkv
    obtain rfl := hr.bits
    rw [Eflags.computeZeroJcc, hk]
    simp only [FlagOperation.set, hres, FlagOperation.deref_some, Program.bind_eq, Program.ret_bind]
    refine Total.bind (hb.constant _ rfl hr.isBV.pos) fun zero hz => ?_
    refine Total.bind (hb.compare _ rfl hr hz) fun e he => Total.ret ⟨e, rfl, ?_⟩
    exact he.congr fun _ _ => (negate_holds k inv r _).trans (congrArg (· != inv) hkv)
  rw [Eflags.computeFastJcc, opKinds_start hsets]
  simp only [operations_start hsets]
  obtain ⟨rfl, rfl, hns⟩ | ⟨rfl, rfl⟩ := hj
  · refine ⟨hlast, ?_⟩
    rw [if_neg hns]
    refine hzero .equal ?_ (Option.some.inj hrf)
    rw [Eflags.zeroKind, if_neg (by simp), if_pos ⟨hflag, rfl⟩]
    rfl
  · refine ⟨hlast, ?_⟩
    have hs := hzero .slt (by rw [Eflags.zeroKind, if_pos ⟨hflag, rfl⟩]; rfl)
      (BitVec.slt_zero_eq_msb.trans (Option.some.inj hrf))
    split <;> exact hs

end Fast

/-! ### The slow path -/

section Slow

variable {σ : Session} {ok : MethodCall → Prop} {b : ExprBuilder}
variable (hb : SoundSimply σ ok (· = ρ) b) (hp : Performed ρ h ops) (inv : Bool)

include hb in
theorem slowInvert_builds {c : Bool} {r : Option Expr} (hr : Says (· = ρ) (fun _ => c) r) :
    Builds σ ok (Eflags.slowInvert b inv r) (Says (· = ρ) fun _ => c != inv) := by
  rw [Eflags.slowInvert]
  cases inv with
  | false => exact Total.ret (by simpa using hr)
  | true =>
      obtain ⟨e, rfl, he⟩ := hr
      simp only [if_true, FlagOperation.deref_some, Program.bind_eq, Program.ret_bind]
      refine Total.bind (hb.lnot rfl he) fun e he => Total.ret ⟨e, rfl, he.congr fun _ _ => ?_⟩
      simp

theorem slowEqual_same {jcc : JccKind} (hj : Eflags.orEqual jcc = false) {c : Bool}
    {r : Option Expr} (hr : Says (· = ρ) (fun _ => c) r) :
    Builds σ ok ((eflags h).slowEqual b jcc r) (Says (· = ρ) fun _ => c) := by
  rw [Eflags.slowEqual, if_neg (by simp [hj])]
  exact Total.ret hr

include hb in
theorem slowEqual_builds {jcc : JccKind} (hj : Eflags.orEqual jcc = true) {c z : Bool}
    {r : Option Expr} (hr : Says (· = ρ) (fun _ => c) r)
    (hz : Builds σ ok ((eflags h).computeFlag b .zf) (Says (· = ρ) fun _ => z)) :
    Builds σ ok ((eflags h).slowEqual b jcc r) (Says (· = ρ) fun _ => c || z) := by
  rw [Eflags.slowEqual, if_pos hj]
  refine Total.bind hz fun zf hzf => ?_
  obtain ⟨e, rfl, he⟩ := hr
  obtain ⟨e', rfl, he'⟩ := hzf
  simp only [FlagOperation.deref_some, Program.bind_eq, Program.ret_bind]
  exact Total.bind (hb.lor rfl he he') fun x hx => Total.ret ⟨x, rfl, hx⟩

include hb in
/-- Sign and overflow that differ. -/
theorem signs_builds {sf of : Bool}
    (hs : Builds σ ok ((eflags h).computeFlag b .sf) (Says (· = ρ) fun _ => sf))
    (ho : Builds σ ok ((eflags h).computeFlag b .of) (Says (· = ρ) fun _ => of)) :
    Builds σ ok ((eflags h).slowFlag b .l) (Says (· = ρ) fun _ => sf != of) := by
  refine Total.bind hs fun r hr => Total.bind ho fun r' hr' => ?_
  obtain ⟨e, rfl, he⟩ := hr
  obtain ⟨e', rfl, he'⟩ := hr'
  simp only [FlagOperation.deref_some, Program.bind_eq, Program.ret_bind]
  exact Total.bind (hb.distinct rfl he he') fun x hx => Total.ret ⟨x, rfl, hx⟩

include hb hp in
theorem slowJcc_builds {jcc : JccKind} (hv : (eflags h).isValid jcc = true) (hz : jcc ≠ .z)
    (hr : ∀ f ∈ jcc.flags, InReach h f) :
    ∃ c, jcc.holds (lastFlag ops) = some c ∧
      Builds σ ok ((eflags h).computeSlowJcc b jcc inv) (Says (· = ρ) fun _ => c != inv) := by
  have hflag : ∀ f ∈ jcc.flags, ∃ v, lastFlag ops f = some v ∧
      Builds σ ok ((eflags h).computeFlag b f) (Says (· = ρ) fun _ => v) := fun f hf =>
    computeFlag_builds hb hp (has_of_isValid hv hf) (hr f hf)
  cases jcc with
  | z => exact absurd rfl hz
  | b =>
      obtain ⟨v, hl, hc⟩ := hflag .cf (by simp [JccKind.flags])
      exact ⟨v, hl, Total.bind hc fun r hr =>
        Total.bind (slowEqual_same rfl hr) fun r hr => slowInvert_builds hb inv hr⟩
  | s =>
      obtain ⟨v, hl, hc⟩ := hflag .sf (by simp [JccKind.flags])
      exact ⟨v, hl, Total.bind hc fun r hr =>
        Total.bind (slowEqual_same rfl hr) fun r hr => slowInvert_builds hb inv hr⟩
  | o =>
      obtain ⟨v, hl, hc⟩ := hflag .of (by simp [JccKind.flags])
      exact ⟨v, hl, Total.bind hc fun r hr =>
        Total.bind (slowEqual_same rfl hr) fun r hr => slowInvert_builds hb inv hr⟩
  | p =>
      obtain ⟨v, hl, hc⟩ := hflag .pf (by simp [JccKind.flags])
      exact ⟨v, hl, Total.bind hc fun r hr =>
        Total.bind (slowEqual_same rfl hr) fun r hr => slowInvert_builds hb inv hr⟩
  | be =>
      obtain ⟨cf, hlc, hcf⟩ := hflag .cf (by simp [JccKind.flags])
      obtain ⟨zf, hlz, hzf⟩ := hflag .zf (by simp [JccKind.flags])
      refine ⟨cf || zf, by simp [JccKind.holds, hlc, hlz], Total.bind hcf fun r hr => ?_⟩
      exact Total.bind (slowEqual_builds hb rfl hr hzf) fun r hr => slowInvert_builds hb inv hr
  | l =>
      obtain ⟨sf, hls, hsf⟩ := hflag .sf (by simp [JccKind.flags])
      obtain ⟨of, hlo, hof⟩ := hflag .of (by simp [JccKind.flags])
      refine ⟨sf != of, by simp [JccKind.holds, hls, hlo], ?_⟩
      exact Total.bind (signs_builds hb hsf hof) fun r hr =>
        Total.bind (slowEqual_same rfl hr) fun r hr => slowInvert_builds hb inv hr
  | le =>
      obtain ⟨sf, hls, hsf⟩ := hflag .sf (by simp [JccKind.flags])
      obtain ⟨of, hlo, hof⟩ := hflag .of (by simp [JccKind.flags])
      obtain ⟨zf, hlz, hzf⟩ := hflag .zf (by simp [JccKind.flags])
      refine ⟨(sf != of) || zf, by simp [JccKind.holds, hls, hlo, hlz], ?_⟩
      refine Total.bind (signs_builds hb hsf hof) fun r hr => ?_
      exact Total.bind (slowEqual_builds hb rfl hr hzf) fun r hr => slowInvert_builds hb inv hr

end Slow

/-! ### Both paths -/

/-- The condition can be answered: on the fast path, or with all flags in reach and not
by the case that falls through. -/
def Answerable (h : FlagHistory) (jcc : JccKind) : Prop :=
  (∃ k ∈ (kinds h).head?, fastAnswers k jcc = true) ∨
    jcc ≠ .z ∧ ∀ f ∈ jcc.flags, InReach h f

instance (h : FlagHistory) (jcc : JccKind) : Decidable (Answerable h jcc) := by
  unfold Answerable
  infer_instance

section Both

variable {σ : Session} {ok : MethodCall → Prop} {b : ExprBuilder}
variable (hb : SoundSimply σ ok (· = ρ) b) (hp : Performed ρ h ops)

include hb hp

theorem fastJcc_builds {jcc : JccKind} (hv : (eflags h).isValid jcc = true) (inv : Bool)
    {s : FlagSet} {ss : List FlagSet} (hsets : sets h = s :: ss)
    (hf : fastAnswers s.kind jcc = true) :
    ∃ c, jcc.holds (lastFlag ops) = some c ∧
      Builds σ ok ((eflags h).computeFastJcc b jcc inv) (Says (· = ρ) fun _ => c != inv) := by
  obtain ⟨op, ops, hop, -, rfl⟩ : ∃ op ops', Performs ρ s op ∧ List.Forall₂ (Performs ρ) ss ops' ∧
      ops = op :: ops' := by
    rw [Performed, hsets] at hp
    exact List.forall₂_cons_left_iff.1 hp
  -- A valid flag that the operation touches is one that it defines.
  have hdefined : ∀ f ∈ jcc.flags, s.kind.touches f = true → ∃ v, op.flag f = some v := by
    intro f hf ht
    obtain ⟨newer, t, older, hsets', hnewer, hd⟩ := split_of_has (has_of_isValid hv hf)
    rw [hsets] at hsets'
    cases newer with
    | nil =>
        cases hsets'
        exact Option.isSome_iff_exists.1 ((hop.defines_eq f).symm.trans hd)
    | cons _ _ =>
        cases hsets'
        exact absurd (hnewer _ List.mem_cons_self) (by simp [ht])
  cases jcc with
  | b | be | l | le => exact fastJcc_sub hsets hb hop inv (by simpa [fastAnswers] using hf) rfl
  | s =>
      obtain ⟨v, hfv⟩ := hdefined .sf (by simp [JccKind.flags]) hf
      exact ⟨v, fastJcc_zero hsets hb hop inv (.inr ⟨rfl, rfl⟩) hfv⟩
  | z =>
      by_cases hs : s.kind = .sub
      · exact fastJcc_sub hsets hb hop inv hs rfl
      · obtain ⟨v, hfv⟩ := hdefined .zf (by simp [JccKind.flags]) hf
        exact ⟨v, fastJcc_zero hsets hb hop inv (.inl ⟨rfl, rfl, hs⟩) hfv⟩
  | o | p => cases hf

theorem computeJcc_builds {jcc : JccKind} (hv : (eflags h).isValid jcc = true) (inv : Bool)
    (ha : Answerable h jcc) :
    ∃ c, jcc.holds (lastFlag ops) = some c ∧
      Builds σ ok ((eflags h).computeJcc b jcc inv) (Says (· = ρ) fun _ => c != inv) := by
  obtain ⟨s, ss, hsets⟩ := head_of_valid hv
  rw [Eflags.computeJcc, if_pos hv]
  cases hf : fastAnswers s.kind jcc with
  | true =>
      obtain ⟨c, hc, hfast⟩ := fastJcc_builds hb hp hv inv hsets hf
      refine ⟨c, hc, Total.bind hfast ?_⟩
      rintro r ⟨e, rfl, he⟩
      exact Total.ret ⟨e, rfl, he⟩
  | false =>
      have ha' : jcc ≠ .z ∧ ∀ f ∈ jcc.flags, InReach h f := by
        refine ha.resolve_left ?_
        rintro ⟨k, hk, hfk⟩
        rw [kinds, hsets] at hk
        cases hk
        exact absurd hfk (by simp [hf])
      obtain ⟨c, hc, hslow⟩ := slowJcc_builds hb hp inv hv ha'.1 ha'.2
      refine ⟨c, hc, ?_⟩
      rw [fastJcc_none hsets hf]
      exact hslow

end Both

/-- `computeJcc` builds the condition of the machine on the flags left by the operations,
negated for `inv`. -/
def IsCondition (σ : Session) (b : ExprBuilder) (ρ : Input) (h : FlagHistory)
    (ops : List Operation) (jcc : JccKind) (inv : Bool) (w : World) : Prop :=
  ∃ e w' c, Runs (body σ) ((eflags h).computeJcc b jcc inv) w (some e) w' ∧
    e.isBoolean = true ∧ jcc.holds (lastFlag ops) = some c ∧ e.truth ρ = (c != inv)

theorem isCondition_of_sound {σ : Session} {ok : MethodCall → Prop} {b : ExprBuilder}
    (hb : SoundSimply σ ok (· = ρ) b) (hp : Performed ρ h ops) {jcc : JccKind}
    (hv : (eflags h).isValid jcc = true) (inv : Bool) (ha : Answerable h jcc) (w : World)
    (hsafe : Safe (body σ) ok ((eflags h).computeJcc b jcc inv) w) :
    IsCondition σ b ρ h ops jcc inv w := by
  obtain ⟨c, hc, hbuilds⟩ := computeJcc_builds hb hp hv inv ha
  obtain ⟨_, w', hr, -, e, rfl, he⟩ := hbuilds w trivial hsafe
  exact ⟨e, w', c, hr, he.isBool.isBoolean, hc, he.truth ρ rfl⟩

/-- **Conditions.** For every history of operations that leaves the flags of a condition
valid, on both paths and for all operand values, `computeJcc` builds the condition of
the machine, as long as it can be answered. -/
theorem computeJcc_isCondition (σ : Session) (ρ : Input) {h : FlagHistory} {ops : List Operation}
    (hp : Performed ρ h ops) {jcc : JccKind} (hv : (eflags h).isValid jcc = true) (inv : Bool)
    (ha : Answerable h jcc) (w : World) :
    IsCondition σ SymbolicExprBuilder.chain ρ h ops jcc inv w :=
  isCondition_of_sound (chain_soundSimply σ (· = ρ)) hp hv inv ha w fun _ _ => trivial

/-- With pruning it holds on the input of the session. -/
theorem computeJcc_isCondition_pruned (σ : Session) {h : FlagHistory} {ops : List Operation}
    (hp : Performed σ.input h ops) {jcc : JccKind} (hv : (eflags h).isValid jcc = true)
    (inv : Bool) (ha : Answerable h jcc) (w : World)
    (hsafe : Safe (body σ) σ.Covers
      ((eflags h).computeJcc PruneExprBuilder.chain jcc inv) w) :
    IsCondition σ PruneExprBuilder.chain σ.input h ops jcc inv w :=
  isCondition_of_sound (prunedChain_sound σ).simply hp hv inv ha w hsafe

/-- `Read 0 - Read 1` over bytes. -/
def subBytes : FlagSet :=
  { kind := .sub, result := some (.binary 1 .sub (.read 0) (.read 1)), dst := some (.read 0)
    src := some (.read 1) }

/-- `INC` of `Read 2`. -/
def incByte : FlagSet :=
  { kind := .inc, result := some (.binary 3 .add (.read 2) (.constant 2 8 1)),
    dst := some (.read 2), src := some (.constant 2 8 1) }

/-- `ROL` of `Read 0` by one. -/
def rolByte : FlagSet :=
  { kind := .rol
    result := some (.binary 6 .or (.binary 4 .shl (.read 0) (.constant 2 8 1))
      (.binary 5 .lshr (.read 0) (.constant 3 8 7)))
    dst := some (.read 0), src := some (.constant 2 8 1) }

theorem denotes_five {n : Nat} {v : BitVec n} {e : Expr} (he : e.IsBV n)
    (hv : e.bv (fun _ => 5) n = v) : Denotes (· = fun _ => 5) n (fun _ => v) e :=
  ⟨he, by rintro _ rfl; exact hv⟩

theorem performs_subBytes : Performs (fun _ => 5) subBytes (.sub 8 5 5) :=
  .sub (by decide) (denotes_five ⟨by decide, rfl, rfl⟩ (by decide))
    (denotes_five ⟨by decide, rfl, rfl⟩ (by decide))
      (denotes_five ⟨by decide, rfl, rfl⟩ (by decide))

theorem performs_incByte : Performs (fun _ => 5) incByte (.inc 8 5) :=
  .inc (by decide) (denotes_five ⟨by decide, rfl, rfl⟩ (by decide))

theorem performs_rolByte : Performs (fun _ => 5) rolByte (.rol 8 5) :=
  .rol (by decide) (denotes_five ⟨by decide, rfl, rfl⟩ (by decide))

/-- `JA` after a comparison and an `INC`: the carry of the one, the zero flag of the other. -/
theorem computeJcc_isCondition_above :
    IsCondition quietSession SymbolicExprBuilder.chain (fun _ => 5) [.set incByte, .set subBytes]
      [.inc 8 5, .sub 8 5 5] .be true (freshWorld 7) :=
  computeJcc_isCondition quietSession _ (.cons performs_incByte (.cons performs_subBytes .nil))
    (by decide) true (by decide) _

theorem computeJcc_rol_run :
    (((eflags [.set rolByte, .set subBytes]).computeJcc SymbolicExprBuilder.chain .z false).run
      (exec (body quietSession) 40) (freshWorld 7)).map
        (fun x => x.1.map fun e => e.truth fun _ => 5) = some (some false) := by
  decide +kernel

/-- `JZ` after the comparison of equal bytes and a rotation: the zero flag is set, but the
expression is the overflow of the rotation. -/
theorem computeJcc_rol_not_isCondition :
    Performed (fun _ => 5) [.set rolByte, .set subBytes] [.rol 8 5, .sub 8 5 5] ∧
      (eflags [.set rolByte, .set subBytes]).isValid .z = true ∧
      ¬ IsCondition quietSession SymbolicExprBuilder.chain (fun _ => 5)
        [.set rolByte, .set subBytes] [.rol 8 5, .sub 8 5 5] .z false (freshWorld 7) := by
  refine ⟨.cons performs_rolByte (.cons performs_subBytes .nil), by decide, ?_⟩
  rintro ⟨e, w', c, hr, -, hc, ht⟩
  have htruth : e.truth (fun _ => 5) = false := Option.some.inj (hr.eq_of_run computeJcc_rol_run)
  cases hc
  rw [htruth] at ht
  exact absurd ht (by decide)

end FlagHistory

end Qsym
