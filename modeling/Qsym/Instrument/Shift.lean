import Qsym.Instrument.Result

/-!
# Qsym.Instrument.Shift

The flags after shifts and rotates. The handler records the result, the operand and the
count, but the methods look at fixed bits of the first two, so the carry of a shift is the
first bit shifted out and not the last. And the handler does not look at the count: where
the machine leaves the flags alone because it is zero, they are recorded all the same, or
let go of if nothing is symbolic.
-/

namespace X86

open Qsym

variable {n : Nat}

/-- The count the machine takes: five bits of the operand, or six. -/
def maskedCount (n k : Nat) : Nat :=
  k % if n = 64 then 64 else 32

def shift : ShiftKind → BitVec n → Nat → BitVec n
  | .shl, d, c => d <<< c
  | .lshr, d, c => d >>> c
  | .ashr, d, c => d.sshiftRight c
  | .rol, d, c => d.rotateLeft c
  | .ror, d, c => d.rotateRight c

/-- The carry of a count that is not zero: the last bit shifted out, or the one rotated
into the edge. -/
def shiftCarry : ShiftKind → BitVec n → Nat → Bool
  | .shl, d, c => d.getLsbD (n - c)
  | .lshr, d, c | .ashr, d, c => d.getLsbD (c - 1)
  | .rol, d, c => (d.rotateLeft c).getLsbD 0
  | .ror, d, c => (d.rotateRight c).msb

/-- The overflow, which is defined for a count of one. -/
def shiftOverflow : ShiftKind → BitVec n → Bool
  | .shl, d => (d <<< 1).msb ^^ d.msb
  | .lshr, d => d.msb
  | .ashr, _ => false
  | .rol, d => (d.rotateLeft 1).msb ^^ (d.rotateLeft 1).getLsbD 0
  | .ror, d => (d.rotateRight 1).msb ^^ (d.rotateRight 1).getLsbD (n - 2)

/-- A rotate defines the carry and the overflow only. -/
def Untouched : ShiftKind → Eflag → Prop
  | .rol, f | .ror, f => f ∈ [.sf, .zf, .pf]
  | _, _ => False

/-- The flags as they are computed from the operand and the result. -/
def recordedFlag : ShiftKind → BitVec n → BitVec n → Eflag → Option Bool
  | .shl, d, _, .cf => some d.msb
  | .lshr, d, _, .cf | .ashr, d, _, .cf => some (d.getLsbD 0)
  | .rol, _, r, .cf => some (r.getLsbD 0)
  | .ror, _, r, .cf => some r.msb
  | .rol, _, r, .of => some (r.msb ^^ r.getLsbD 0)
  | .ror, _, r, .of => some (r.msb ^^ r.getLsbD (n - 2))
  | _, d, r, .of => some (r.msb ^^ d.msb)
  | .rol, _, _, _ | .ror, _, _, _ => none
  | _, _, r, f => resultFlag r f

/-- The first bit shifted out is the last one, too, as far as the carry goes. -/
def EndsAgree : ShiftKind → BitVec n → Nat → Prop
  | .shl, d, c => d.getLsbD (n - c) = d.msb
  | .lshr, d, c | .ashr, d, c => d.getLsbD (c - 1) = d.getLsbD 0
  | .rol, _, _ | .ror, _, _ => True

section

variable (kind : ShiftKind) (d : BitVec n)

theorem touches_iff {f : Eflag} (hf : f ≠ .af) :
    (getOpKindShift kind).touches f = false ↔ Untouched kind f := by
  cases kind <;> cases f <;> first | exact absurd rfl hf | simp [Untouched]; rfl

theorem not_untouched_af : ¬ Untouched kind .af := by
  cases kind <;> simp [Untouched]

theorem recordedFlag_isSome (r : BitVec n) (f : Eflag) :
    (recordedFlag kind d r f).isSome = (getOpKindShift kind).defines f := by
  cases kind <;> cases f <;> rfl

theorem recordedFlag_isSome_iff (r : BitVec n) (f : Eflag) :
    (recordedFlag kind d r f).isSome = true ↔ f ≠ .af ∧ ¬ Untouched kind f := by
  cases kind <;> cases f <;> simp [recordedFlag, resultFlag, Untouched]

theorem recordedFlag_of_result {r : BitVec n} {f : Eflag} {v : Bool} (hu : ¬ Untouched kind f)
    (hv : resultFlag r f = some v) : recordedFlag kind d r f = some v := by
  cases kind <;> cases f <;> simp_all [recordedFlag, resultFlag, Untouched]

theorem shift_zero : shift kind d 0 = d := by
  have hzero : d >>> n = 0 := BitVec.ushiftRight_eq_zero (Nat.le_refl n)
  cases kind <;> simp [shift, BitVec.rotateLeft_def, BitVec.rotateRight_def, hzero]

theorem recordedFlag_cf_iff (c : Nat) :
    recordedFlag kind d (shift kind d c) .cf = some (shiftCarry kind d c) ↔ EndsAgree kind d c := by
  cases kind with
  | rol | ror => simp [recordedFlag, shift, shiftCarry, EndsAgree]
  | _ => simp [recordedFlag, shiftCarry, EndsAgree, eq_comm]

theorem recordedFlag_of :
    recordedFlag kind d (shift kind d 1) .of = some (shiftOverflow kind d) := by
  cases kind with
  | lshr => simp [recordedFlag, shift, shiftOverflow]
  | ashr => simp [recordedFlag, shift, shiftOverflow]
  | _ => rfl

end

theorem maskedCount_eq {k : Nat} (hn : n ∈ [8, 16, 32, 64]) (hk : maskedCount n k < n) :
    k % n = maskedCount n k := by
  simp only [List.mem_cons, List.not_mem_nil, or_false] at hn
  rcases hn with rfl | rfl | rfl | rfl <;> simp [maskedCount] at hk ⊢ <;> omega

/-- An immediate of the width of the destination is masked as it is. -/
theorem maskedCount_mod_two_pow (hn : n ∈ [8, 16, 32, 64]) :
    maskedCount n (k % 2 ^ n) = maskedCount n k ∧ k % 2 ^ n % n = k % n := by
  simp only [List.mem_cons, List.not_mem_nil, or_false] at hn
  rcases hn with rfl | rfl | rfl | rfl <;> simp only [maskedCount, Nat.reduceEqDiff, if_true,
    if_false] <;> omega

theorem rotateLeft_eq {c : Nat} (d : BitVec n) (hc : c < n) :
    d >>> (n - c) ||| d <<< c = d.rotateLeft c := by
  rw [BitVec.rotateLeft_def, Nat.mod_eq_of_lt hc, BitVec.or_comm]

theorem rotateRight_eq {c : Nat} (d : BitVec n) (hc : c < n) :
    d >>> c ||| d <<< (n - c) = d.rotateRight c := by
  rw [BitVec.rotateRight_def, Nat.mod_eq_of_lt hc]

end X86

namespace Qsym

open Procedure X86

/-- The handlers of shifts and rotates, by their operands. -/
inductive ShiftForm (Reg : Type)
  | regImm (dst : Reg) (imm : Addr)
  | regCl (dst : Reg)
  | memImm (m : MemArg Reg) (imm : Addr)
  | memCl (m : MemArg Reg)

namespace ShiftForm

open Handler Process

variable {Reg : Type} [DecidableEq Reg] (T : Process Reg)

def handler (kind : ShiftKind) : ShiftForm Reg → Handler Reg Unit
  | regImm dst imm => T.instrumentShiftRegImm dst imm kind
  | regCl dst => T.instrumentShiftRegCl dst kind
  | memImm m imm => T.instrumentShiftMemImm m imm kind
  | memCl m => T.instrumentShiftMemCl m kind

def operands : ShiftForm Reg → Handler Reg (Option (Expr × Expr))
  | regImm dst imm => T.getExprFromRegImm dst imm
  | regCl dst => T.getExprFromRegReg dst T.pin.regCl
  | memImm m imm => T.getExprFromMemImm m imm
  | memCl m => T.getExprFromMemReg m T.pin.regCl

def dst : ShiftForm Reg → Operand Reg
  | regImm dst _ | regCl dst => .reg dst
  | memImm m _ | memCl m => .mem m.addr m.size

/-- The operands that are read. -/
def sources : ShiftForm Reg → List (Operand Reg)
  | regImm dst _ => [.reg dst]
  | regCl dst => [.reg dst, .reg T.pin.regCl]
  | memImm m _ => [.mem m.addr m.size]
  | memCl m => [.mem m.addr m.size, .reg T.pin.regCl]

/-- The count, for an input. -/
def count (v : ShadowMap Reg) (ρ : Input) : ShiftForm Reg → Nat
  | regImm _ imm | memImm _ imm => imm.toNat
  | regCl _ | memCl _ => ((Operand.reg T.pin.regCl).bv T v ρ).toNat

/-- The operands can be read, and the destination can be written. -/
def Ready (s : Shadow) : ShiftForm Reg → Prop
  | regImm dst _ => T.Tracked dst
  | regCl dst => T.Tracked dst ∧ T.Tracked T.pin.regCl
  | memImm m _ => T.Addressed m ∧ Mapped s.memory m.addr m.size
  | memCl m => T.Addressed m ∧ T.Tracked T.pin.regCl ∧ Mapped s.memory m.addr m.size

/-- The shadow map when the operands are read. -/
noncomputable def start (v : ShadowMap Reg) : ShiftForm Reg → ShadowMap Reg
  | regImm _ _ | regCl _ => v
  | memImm m _ | memCl m => T.afterAddress v m

/-- The handler comes to expressions of the operands. -/
def Answers (v : ShadowMap Reg) (form : ShiftForm Reg) : Prop :=
  T.Answers (form.start T v) (form.sources T)

variable {T} {σ : Session} {ok : MethodCall → Prop} (form : ShiftForm Reg) {s s' : Shadow}

theorem handler_eq (kind : ShiftKind) : form.handler T kind =
    T.instrumentShift (form.operands T) kind (form.dst.size T * 8) (form.dst.set T) := by
  cases form <;> rfl

variable {form} in
theorem Ready.writable (h : form.Ready T s) : T.Writable s form.dst := by
  cases form with
  | regImm => exact h
  | regCl => exact h.1
  | memImm => exact h.2
  | memCl => exact h.2.2

end ShiftForm

namespace Process

open Handler Stateful FlagHistory FlagOperation
open SymbolicExprBuilder (chain)

variable {Reg : Type} [DecidableEq Reg] {T : Process Reg} {σ : Session} {ρ : Input}
variable {kind : ShiftKind} {n c : Nat} {d : BitVec n}

/-! ### What is recorded -/

theorem shiftExpr_builds {ok : MethodCall → Prop} {b : ExprBuilder} (hb : Sound σ ok (· = ρ) b)
    {dst count : Expr} (hd : Denotes (· = ρ) n (fun _ => d) dst)
    (hcount : Denotes (· = ρ) n (fun _ => BitVec.ofNat n c) count) (hc : c < n) :
    Builds σ ok (b.shiftExpr kind dst count n) (Denotes (· = ρ) n fun _ => shift kind d c) := by
  have hb : SoundOn (fun c => c.isSDiv = false) σ ok (· = ρ) b := hb
  have hnat : ∀ i, i ≤ n → (BitVec.ofNat n i).toNat = i := fun i hi => by
    rw [BitVec.toNat_ofNat, Nat.mod_eq_of_lt (Nat.lt_of_le_of_lt hi Nat.lt_two_pow_self)]
  have hrest : BitVec.ofNat n n - BitVec.ofNat n c = BitVec.ofNat n (n - c) := by
    apply BitVec.eq_of_toNat_eq
    rw [BitVec.toNat_sub_of_le
      (by rw [BitVec.le_def, hnat n (Nat.le_refl n), hnat c (by omega)]; omega),
      hnat n (Nat.le_refl n), hnat c (by omega), hnat (n - c) (by omega)]
  -- the amounts are numbers below the width, or the width itself
  have hshl {i : Nat} {e : Expr} (hi : i ≤ n)
      (he : Denotes (· = ρ) n (fun _ => BitVec.ofNat n i) e) :
      Builds σ ok (b.createShl dst e) (Denotes (· = ρ) n fun _ => d <<< i) :=
    (hb.binary (k := .shl) rfl rfl hd he).mono fun x hx => hx.congr fun _ _ => by
      simp only [BinaryKind.apply, BitVec.shiftLeft_eq', hnat i hi]
  have hlshr {i : Nat} {e : Expr} (hi : i ≤ n)
      (he : Denotes (· = ρ) n (fun _ => BitVec.ofNat n i) e) :
      Builds σ ok (b.createLShr dst e) (Denotes (· = ρ) n fun _ => d >>> i) :=
    (hb.binary (k := .lshr) rfl rfl hd he).mono fun x hx => hx.congr fun _ _ => by
      simp only [BinaryKind.apply, BitVec.ushiftRight_eq', hnat i hi]
  have hrotate (left : Bool) : Builds σ ok (b.rotate left dst count n)
      (Denotes (· = ρ) n fun _ => if left then d.rotateLeft c else d.rotateRight c) := by
    refine Total.bind (hb.constant _ rfl (by omega)) fun width hwidth => ?_
    refine Total.bind (hb.binary (k := .sub) rfl rfl hwidth hcount) fun rest hsub => ?_
    have hsub := hsub.congr fun _ _ => hrest
    cases left with
    | true =>
        refine Total.bind (hlshr (by omega) hsub) fun r hr => ?_
        refine Total.bind (hshl (by omega) hcount) fun l hl => ?_
        refine (hb.binary (k := .or) rfl rfl hr hl).mono fun x hx => hx.congr fun _ _ => ?_
        exact rotateLeft_eq d hc
    | false =>
        refine Total.bind (hlshr (by omega) hcount) fun r hr => ?_
        refine Total.bind (hshl (by omega) hsub) fun l hl => ?_
        refine (hb.binary (k := .or) rfl rfl hr hl).mono fun x hx => hx.congr fun _ _ => ?_
        exact rotateRight_eq d hc
  cases kind with
  | shl => exact hshl (by omega) hcount
  | lshr => exact hlshr (by omega) hcount
  | ashr =>
      refine (hb.binary (k := .ashr) rfl rfl hd hcount).mono fun x hx => hx.congr fun _ _ => ?_
      simp only [BinaryKind.apply, BitVec.sshiftRight_eq', hnat c (by omega), shift]
  | rol => exact hrotate true
  | ror => exact hrotate false

/-- The count modulo the width, or another number. -/
theorem normalizeShiftCount_builds {m : Nat} {k : Input → BitVec m} {e : Expr}
    (he : Expresses m k e) (hm : m ≤ n) (hn : 0 < n) {modulo : Nat} (hmod : modulo < 2 ^ n) :
    Builds σ exactly (chain.normalizeShiftCount e n modulo)
      (Expresses n fun ρ => BitVec.ofNat n ((k ρ).toNat % modulo)) := by
  refine Total.bind (Expresses.createConstant_builds modulo hn) fun c hc => ?_
  refine Total.bind (he.ext_builds .zext hm) fun x hx => ?_
  refine (hx.binary_builds (k := .urem) nofun rfl hc).mono fun y hy => hy.congr fun ρ => ?_
  apply BitVec.eq_of_toNat_eq
  have hlt : (k ρ).toNat < 2 ^ n :=
    Nat.lt_of_lt_of_le (k ρ).isLt (Nat.pow_le_pow_right Nat.two_pos hm)
  simp only [BinaryKind.apply, ExtKind.apply, BitVec.toNat_umod, BitVec.toNat_setWidth,
    BitVec.toNat_ofNat, Nat.mod_eq_of_lt hlt, Nat.mod_eq_of_lt hmod]
  exact (Nat.mod_eq_of_lt ((Nat.mod_le _ _).trans_lt hlt)).symm

theorem rotate_trimmed (left : Bool) {dst count : Expr} (hd : dst.Trimmed) (hc : count.Trimmed)
    (w : Nat) : Yields (body σ) exactly (chain.rotate left dst count w) Expr.Trimmed := by
  have htrimmed (k : BinaryKind) {l r : Expr} (hl : l.Trimmed) (hr : r.Trimmed) :
      Yields (body σ) exactly (chain.create (.binary k l r)) Expr.Trimmed :=
    chain_trimmed σ ⟨fun _ => trivial, hl, hr⟩
  have hconst : Yields (body σ) exactly (chain.createConstant w w) Expr.Trimmed :=
    chain_trimmed σ trivial
  refine hconst.bind fun width hw => (htrimmed .sub hw hc).bind fun rest hrest => ?_
  cases left with
  | true =>
      exact (htrimmed .lshr hd hrest).bind fun r hr => (htrimmed .shl hd hc).bind fun l hl =>
        htrimmed .or hr hl
  | false =>
      exact (htrimmed .lshr hd hc).bind fun r hr => (htrimmed .shl hd hrest).bind fun l hl =>
        htrimmed .or hr hl

/-- The result for a count below the width. -/
theorem shiftExpr_expresses (kind : ShiftKind) {d : Input → BitVec n} {c : Input → Nat}
    {dst count : Expr} (hd : Expresses n d dst)
    (hc : Expresses n (fun ρ => BitVec.ofNat n (c ρ)) count) (hlt : ∀ ρ, c ρ < n) :
    Builds σ exactly (chain.shiftExpr kind dst count n)
      (Expresses n fun ρ => shift kind (d ρ) (c ρ)) := by
  have htrimmed (k : BinaryKind) : Yields (body σ) exactly (chain.create (.binary k dst count))
      Expr.Trimmed := chain_trimmed σ ⟨fun _ => trivial, hd.trimmed, hc.trimmed⟩
  refine expresses_of_each (fun ρ => ?_) ?_
  · exact shiftExpr_builds (sound_at σ ρ) (hd.at ρ) (hc.at ρ) (hlt ρ)
  · cases kind with
    | shl => exact htrimmed .shl
    | lshr => exact htrimmed .lshr
    | ashr => exact htrimmed .ashr
    | rol => exact rotate_trimmed true hd.trimmed hc.trimmed n
    | ror => exact rotate_trimmed false hd.trimmed hc.trimmed n

/-- The methods compute the flags from the operand and the result that are recorded. -/
theorem shift_computes {ok : MethodCall → Prop} {b : ExprBuilder}
    (hb : SoundSimply σ ok (· = ρ) b) (hn : 8 ≤ n) {r : BitVec n} {res dst : Expr}
    {count : Option Expr} (hr : Denotes (· = ρ) n (fun _ => r) res)
    (hd : Denotes (· = ρ) n (fun _ => d) dst) {f : Eflag} {v : Bool}
    (hf : recordedFlag kind d r f = some v) :
    Performs.Computes σ ok b ρ ⟨getOpKindShift kind, some res, some dst, count⟩ f v := by
  cases f with
  | cf =>
      cases kind <;> cases hf
      · exact ⟨_, rfl, bitCF_builds hb (createMsb_builds hb hd)⟩
      · exact ⟨_, rfl, bitCF_builds hb (createLsb_builds hb hd)⟩
      · exact ⟨_, rfl, bitCF_builds hb (createLsb_builds hb hd)⟩
      · exact ⟨_, rfl, bitCF_builds hb (createLsb_builds hb hr)⟩
      · exact ⟨_, rfl, bitCF_builds hb (createMsb_builds hb hr)⟩
  | of =>
      cases kind <;> cases hf
      · exact ⟨_, rfl, shiftOF_builds hb rfl rfl hr hd⟩
      · exact ⟨_, rfl, shiftOF_builds hb rfl rfl hr hd⟩
      · exact ⟨_, rfl, shiftOF_builds hb rfl rfl hr hd⟩
      · exact ⟨_, rfl, rolOF_builds hb rfl hr⟩
      · exact ⟨_, rfl, rorOF_builds hb rfl hr (by omega)⟩
  | _ =>
      refine Performs.result_computes hb rfl hr hn ?_
      cases kind <;> first | exact hf | cases hf

/-! ### The flags afterwards -/

/-- Jumps are told the flags of a shift by a count that is not zero. -/
structure ShiftDefines (σ : Session) (ρ : Input) (kind : ShiftKind) (d : BitVec n) (c : Nat)
    (e : Eflags) : Prop where
  carry : e.Tells σ ρ .cf (shiftCarry kind d c)
  overflow : c = 1 → e.Tells σ ρ .of (shiftOverflow kind d)
  result : ∀ f v, ¬ Untouched kind f → resultFlag (shift kind d c) f = some v → e.Tells σ ρ f v

/-- The flags after a shift by `c` are those of the machine: what a rotate does not touch is
kept, and what is touched is defined, or left as it was if the count is zero. -/
structure ShiftFlags (σ : Session) (ρ : Input) (h : FlagHistory) (kind : ShiftKind) (d : BitVec n)
    (c : Nat) (e : Eflags) : Prop where
  kept : ∀ f, Untouched kind f → Kept h e f
  defined : c ≠ 0 → ShiftDefines σ ρ kind d c e
  left : c = 0 → ∀ f, f ≠ .af → ¬ Untouched kind f → Leaves σ ρ h e f

/-- What a shift does to the flags, as far as the walk of `computeFlag` goes. -/
def shiftCall (kind : ShiftKind) (symbolic : Bool) : EflagsCall :=
  if symbolic then .set ⟨getOpKindShift kind, none, none, none⟩
  else .invalidate (getOpKindShift kind)

/-- When the flags are right: the walk still comes to what a rotate does not touch; the bit
that is taken for the carry agrees with the last one shifted out; and a count of zero finds
flags that are not known, if nothing is symbolic, or that are those it records. -/
structure ShiftRight (σ : Session) (ρ : Input) (h : FlagHistory) (kind : ShiftKind) (d : BitVec n)
    (c : Nat) (symbolic : Bool) : Prop where
  reached : ∀ f, Untouched kind f → (eflags h).validSet.has f = true →
    InReach (shiftCall kind symbolic :: h) f
  ends : c ≠ 0 → symbolic = true → EndsAgree kind d c
  same : c = 0 → symbolic = true → ∀ f v, recordedFlag kind d d f = some v →
    (eflags h).validSet.has f = true ∧ ∀ u, FlagHistory.Gives σ ρ h f u → u = v
  unknown : c = 0 → symbolic = false → ∀ f, f ≠ .af → ¬ Untouched kind f →
    (eflags h).validSet.has f = false

variable {s : Shadow} {h : FlagHistory} {symbolic : Bool} {count : Nat}

/-- The flags let go of. -/
theorem shift_concrete_iff (hsym : symbolic = false) :
    ShiftFlags σ ρ h kind d c ((eflags h).invalidate (getOpKindShift kind)) ↔
      ShiftRight σ ρ h kind d c symbolic := by
  subst hsym
  have htouch {f : Eflag} (hf : f ≠ .af) (hu : ¬ Untouched kind f) :
      (getOpKindShift kind).touches f = true := by
    rw [← Bool.not_eq_false, touches_iff kind hf]
    exact hu
  have hkept {f : Eflag} (hu : Untouched kind f) :
      Kept h ((eflags h).invalidate (getOpKindShift kind)) f ↔
        ((eflags h).validSet.has f = true → InReach (shiftCall kind false :: h) f) := by
    have hf : f ≠ .af := fun hf => not_untouched_af kind (hf ▸ hu)
    exact kept_iff (c := .invalidate (getOpKindShift kind)) ((touches_iff kind hf).2 hu)
  -- a flag that was let go of is the one of the machine
  have htells {f : Eflag} {v : Bool} (hf : f ≠ .af) (hu : ¬ Untouched kind f) :
      ((eflags h).invalidate (getOpKindShift kind)).Tells σ ρ f v := by
    intro hv
    rw [Eflags.has_invalidate, htouch hf hu, Bool.not_true, Bool.and_false] at hv
    cases hv
  have hcf : ¬ Untouched kind .cf := by cases kind <;> simp [Untouched]
  have hof : ¬ Untouched kind .of := by cases kind <;> simp [Untouched]
  constructor
  · intro hflags
    exact ⟨fun f hu => (hkept hu).1 (hflags.kept f hu), fun _ => nofun, fun _ => nofun,
      fun hc _ f hf hu => (leaves_invalidate_iff (htouch hf hu)).1 (hflags.left hc f hf hu)⟩
  · intro hright
    refine ⟨fun f hu => (hkept hu).2 (hright.reached f hu), fun _ => ?_, fun hc f hf hu => ?_⟩
    · refine ⟨htells nofun hcf, fun _ => htells nofun hof, fun f v hu hv => htells ?_ hu⟩
      rintro rfl
      cases hv
    · exact (leaves_invalidate_iff (htouch hf hu)).2 (hright.unknown hc rfl f hf hu)

/-- The flags recorded. -/
theorem shift_symbolic_iff (hsym : symbolic = true) {fs : FlagSet}
    (hfs : fs.kind = getOpKindShift kind)
    (hcomp : ∀ f v, recordedFlag kind d (shift kind d c) f = some v →
      Performs.Computes σ anyCall SymbolicExprBuilder.chain ρ fs f v) :
    ShiftFlags σ ρ h kind d c ((eflags h).set fs.kind fs.result fs.dst fs.src) ↔
      ShiftRight σ ρ h kind d c symbolic := by
  subst hsym
  have hdef {f : Eflag} {v : Bool} (hv : recordedFlag kind d (shift kind d c) f = some v) :
      fs.kind.defines f = true := by
    rw [hfs, ← recordedFlag_isSome kind d (shift kind d c), hv]
    rfl
  have hreports {f : Eflag} {v : Bool} (hv : recordedFlag kind d (shift kind d c) f = some v) :
      ((eflags h).set fs.kind fs.result fs.dst fs.src).Reports σ ρ f v :=
    Eflags.reports_set (hdef hv) (hcomp f v hv)
  have hkept {f : Eflag} (hu : Untouched kind f) :
      Kept h ((eflags h).set fs.kind fs.result fs.dst fs.src) f ↔
        ((eflags h).validSet.has f = true → InReach (shiftCall kind true :: h) f) := by
    have hf : f ≠ .af := fun hf => not_untouched_af kind (hf ▸ hu)
    have htouch : EflagsCall.touches (.set fs) f = false := by
      rw [EflagsCall.touches, hfs]
      exact (touches_iff kind hf).2 hu
    refine (kept_iff htouch).trans (imp_congr_right fun _ => inReach_congr ?_)
    simp [kinds, sets, shiftCall, hfs]
  have hsome {f : Eflag} (hf : f ≠ .af) (hu : ¬ Untouched kind f) (r : BitVec n) :
      ∃ v, recordedFlag kind d r f = some v :=
    Option.isSome_iff_exists.1 ((recordedFlag_isSome_iff kind d r f).2 ⟨hf, hu⟩)
  constructor
  · intro hflags
    refine ⟨fun f hu => (hkept hu).1 (hflags.kept f hu), fun hc _ => ?_, fun hc _ f v hv => ?_,
      fun _ h => by cases h⟩
    · obtain ⟨v, hv⟩ := hsome (f := .cf) (by decide) (by cases kind <;> simp [Untouched])
          (shift kind d c)
      have hcarry := (hreports hv).tells_iff.1 (hflags.defined hc).carry
      exact (recordedFlag_cf_iff kind d c).1 (hcarry ▸ hv)
    · subst hc
      rw [shift_zero] at hcomp hdef
      obtain ⟨hf, hu⟩ := (recordedFlag_isSome_iff kind d d f).1 (by simp [hv])
      exact (leaves_set_iff (hdef hv) (hcomp f v hv)).1 (hflags.left rfl f hf hu)
  · intro hright
    refine ⟨fun f hu => (hkept hu).2 (hright.reached f hu), fun hc => ⟨?_, ?_, ?_⟩,
      fun hc f hf hu => ?_⟩
    · exact (hreports ((recordedFlag_cf_iff kind d c).2 (hright.ends hc rfl))).tells_iff.2 rfl
    · rintro rfl
      exact (hreports (recordedFlag_of kind d)).tells_iff.2 rfl
    · intro f v hu hv
      exact (hreports (recordedFlag_of_result kind d hu hv)).tells_iff.2 rfl
    · subst hc
      rw [shift_zero] at hcomp hdef
      obtain ⟨v, hv⟩ := hsome hf hu d
      exact (leaves_set_iff (hdef hv) (hcomp f v hv)).2 (hright.same rfl rfl f v hv)

/-- The flags recorded are those of the operand and the result. -/
theorem shift_recorded_iff (hsym : symbolic = true) (hn : 8 ≤ n) {res dst : Expr}
    {count : Option Expr} (hr : Denotes (· = ρ) n (fun _ => shift kind d c) res)
    (hd : Denotes (· = ρ) n (fun _ => d) dst) :
    ShiftFlags σ ρ h kind d c
        ((eflags h).set (getOpKindShift kind) (some res) (some dst) count) ↔
      ShiftRight σ ρ h kind d c symbolic := by
  have hkind : (FlagSet.mk (getOpKindShift kind) (some res) (some dst) count).kind =
      getOpKindShift kind := rfl
  have hiff := shift_symbolic_iff (h := h) hsym hkind fun f v hv =>
    shift_computes (chain_soundSimply σ (· = ρ)) hn hr hd hv
  exact hiff

/-! ### The handlers -/

/-- The destination, and a count that is the one of the form as far as the handler goes. -/
def ShiftGiven (T : Process Reg) (v : ShadowMap Reg) (form : ShiftForm Reg) (x : Expr × Expr) :
    Prop :=
  Expresses (form.dst.size T * 8) (form.dst.bv T v) x.1 ∧
    ∃ m, m ≤ form.dst.size T * 8 ∧ ∃ k : Input → BitVec m, Expresses m k x.2 ∧
      ∀ ρ, (k ρ).toNat % (form.dst.size T * 8) = form.count T v ρ % (form.dst.size T * 8)

/-- The value that the handler computes: a shift by the count modulo the width. -/
def shiftValue (T : Process Reg) (v : ShadowMap Reg) (form : ShiftForm Reg) (kind : ShiftKind)
    (ρ : Input) : BitVec (form.dst.size T * 8) :=
  shift kind (form.dst.bv T v ρ) (form.count T v ρ % (form.dst.size T * 8))

/-- Nothing is known of the operands, and the flags are let go of. -/
structure ShiftLets (T : Process Reg) (s s' : Shadow) (form : ShiftForm Reg) (kind : ShiftKind) :
    Prop where
  idle : T.Idle (T.peek s) (T.peek s') (form.sources T)
  flags : s'.eflags = s.eflags.invalidate (getOpKindShift kind)

/-- The result is put into the destination, and the flags are recorded. -/
structure ShiftSets (T : Process Reg) (s s' : Shadow) (form : ShiftForm Reg) (kind : ShiftKind) :
    Prop where
  puts : ∃ v₁, Fades (T.peek s) v₁ ∧
    T.Puts v₁ (T.peek s') form.dst (shiftValue T (T.peek s) form kind)
  flags : ∃ res dst count, Expresses _ (shiftValue T (T.peek s) form kind) res ∧
    Expresses _ (form.dst.bv T (T.peek s)) dst ∧
    s'.eflags = s.eflags.set (getOpKindShift kind) (some res) (some dst) (some count)

section Handlers

variable (hP : T.pin.Documented) (hb : T.builder = chain) (hcl : T.pin.regSize T.pin.regCl = 1)
  (hs : s.WellFormed) (hv : T.Consistent σ.input (T.peek s)) (form : ShiftForm Reg)
  (hn : form.dst.size T ∈ [1, 2, 4, 8])

include hP hb hs

include hcl hv hn in
theorem shift_fetches : Fetches σ T (form.operands T) s (form.sources T)
    (ShiftGiven T (T.peek s) form) := by
  have hbits : form.dst.size T * 8 ∈ [8, 16, 32, 64] := by
    simp only [List.mem_cons, List.not_mem_nil, or_false] at hn ⊢
    omega
  have hpos : 0 < form.dst.size T := by
    simp only [List.mem_cons, List.not_mem_nil, or_false] at hn
    omega
  -- an immediate comes with the width of the destination, `CL` with eight bits
  have himm (imm : Addr) (hc : ∀ ρ, form.count T (T.peek s) ρ = imm.toNat) (x : Expr × Expr)
      (hx : ImmOf T (T.peek s) form.dst imm x) : ShiftGiven T (T.peek s) form x := by
    refine ⟨hx.1, _, le_rfl, _, hx.2, fun ρ => ?_⟩
    rw [BitVec.toNat_ofNat, (maskedCount_mod_two_pow hbits).2, hc]
  have hreg (hc : ∀ ρ,
      form.count T (T.peek s) ρ = ((Operand.reg T.pin.regCl).bv T (T.peek s) ρ).toNat)
      (x : Expr × Expr) (hx : PairOf T (T.peek s) form.dst (.reg T.pin.regCl) x) :
      ShiftGiven T (T.peek s) form x := by
    refine ⟨hx.1, _, ?_, _, hx.2, fun ρ => by rw [hc]⟩
    rw [Operand.size, hcl]
    omega
  cases form with
  | regImm dst imm =>
      exact (getExprFromRegImm_fetches hP hb hs hv dst imm).mono (himm imm fun _ => rfl)
  | regCl dst => exact (getExprFromRegReg_fetches hP hb hs hv dst _).mono (hreg fun _ => rfl)
  | memImm m imm =>
      exact (getExprFromMemImm_fetches hP hb hs hv hpos imm).mono (himm imm fun _ => rfl)
  | memCl m => exact (getExprFromMemReg_fetches hP hb hs hv hpos _).mono (hreg fun _ => rfl)

include hv hn in
theorem shift_reads (hready : form.Ready T s) : Returns (body σ) exactly (form.operands T) s := by
  have hpos : 0 < form.dst.size T := by
    simp only [List.mem_cons, List.not_mem_nil, or_false] at hn
    omega
  cases form with
  | regImm dst imm => exact getExprFromRegImm_returns hP hb hs hready imm hv
  | regCl dst => exact getExprFromRegReg_returns hP hb hs hready.1 hready.2
  | memImm m imm => exact getExprFromMemImm_returns hP hb hs hready.1 hpos imm hv
  | memCl m => exact getExprFromMemReg_returns hP hb hs hready.1 hpos hready.2.1

theorem shift_answers : Ensures (body σ) exactly (form.operands T) s fun x _ _ =>
    x = none ↔ ¬ form.Answers T (T.peek s) := by
  cases form with
  | regImm dst imm => exact imm_answers hP hb hs (.reg dst) imm
  | regCl dst => exact pair_answers hP hb hs (.reg dst) (.reg T.pin.regCl) _ _
  | memImm m imm =>
      refine Ensures.bind (makeAddrConcrete_after hP hb hs m) fun _ s₁ _ ⟨h₁, hpeek⟩ => ?_
      refine (imm_answers hP hb h₁ (.mem m.addr m.size) imm).mono fun _ _ _ h => ?_
      rwa [hpeek] at h
  | memCl m =>
      refine Ensures.bind (makeAddrConcrete_after hP hb hs m) fun _ s₁ _ ⟨h₁, hpeek⟩ => ?_
      refine (pair_answers hP hb h₁ (.mem m.addr m.size) (.reg T.pin.regCl) _ _).mono
        fun _ _ _ h => ?_
      rwa [hpeek] at h

include hcl hv hn in
/-- What the handler does. -/
theorem shift_achieves (hready : form.Ready T s) (kind : ShiftKind) :
    Achieves (body σ) exactly (form.handler T kind) s fun _ s' _ =>
      ¬ form.Answers T (T.peek s) ∧ ShiftLets T s s' form kind ∨
        form.Answers T (T.peek s) ∧ ShiftSets T s s' form kind := by
  have hanswers := shift_answers (σ := σ) hP hb hs form
  have hfetches := Fetches.and (shift_fetches (σ := σ) hP hb hcl hs hv form hn)
    (hanswers.mono fun _ _ _ h hne => not_not.1 (mt h.2 hne))
  rw [form.handler_eq]
  refine computing_achieves_of (C := ¬ form.Answers T (T.peek s)) hfetches
    (shift_reads hP hb hs hv form hn hready) (hanswers.mono fun _ _ _ h => h.1)
    (fun s₁ hnot h₁ hidle => ?_) fun s₁ x h₁ ⟨⟨hdst, m, hm, k, hk, hmod⟩, hans⟩ => ?_
  · refine Achieves.mono (onEflags_achieves _) fun _ s' _ hs' => .inl ⟨hnot, ?_⟩
    rw [hs']
    exact ⟨hidle, by rw [h₁.eflags]⟩
  have hsize : 0 < form.dst.size T ∧ form.dst.size T ≤ 2 ^ 64 := by
    simp only [List.mem_cons, List.not_mem_nil, or_false] at hn
    omega
  have hcount : Builds σ exactly (T.builder.normalizeShiftCount x.2 (form.dst.size T * 8)
      (form.dst.size T * 8)) (Expresses (form.dst.size T * 8) fun ρ => BitVec.ofNat _
        (form.count T (T.peek s) ρ % (form.dst.size T * 8))) := by
    rw [hb]
    refine (normalizeShiftCount_builds hk hm (by omega) Nat.lt_two_pow_self).mono fun e he => ?_
    exact he.congr fun ρ => by rw [hmod]
  have hexpr : Achieves (body σ) exactly (T.doShift kind x.1 x.2 (form.dst.size T * 8)) s₁
      fun res s₂ _ => Expresses _ (shiftValue T (T.peek s) form kind) res ∧ ∃ count, s₂ =
        { s₁ with
          eflags := s₁.eflags.set (getOpKindShift kind) (some res) (some x.1) (some count) } := by
    refine Achieves.lift_bind hcount fun count hcount => ?_
    have hpos : form.dst.size T * 8 > 0 := by omega
    have hshift := shiftExpr_expresses (σ := σ) kind hdst hcount fun ρ => Nat.mod_lt _ hpos
    refine Achieves.lift_bind (hb ▸ hshift) fun res hres => ?_
    exact onEflags_bind (.ret ⟨hres, count, rfl⟩)
  refine Achieves.bind hexpr fun res s₂ _ ⟨hres, count, hs₂⟩ => ?_
  have hwritable : T.Writable s₂ form.dst := by
    rw [hs₂]
    exact hready.writable.of_samePages h₁.pages
  refine Achieves.mono (set_achieves hP hb hwritable hsize.2 hres) fun _ s' _ ⟨heq, hputs⟩ => ?_
  subst hs₂
  exact .inr ⟨hans, ⟨_, h₁.fades, hputs⟩, res, x.1, count, hres, hdst,
    heq.trans (by rw [h₁.eflags])⟩

include hcl hv hn in
/-- **Shifts and rotates.** For every form and width, operand, count that is below the width
once it is masked, and flags before, the flags afterwards are those of the machine if and only
if `ShiftRight` holds. -/
theorem instrumentShift_flags_iff (hready : form.Ready T s) (kind : ShiftKind)
    (hsym : symbolic = true ↔ form.Answers T (T.peek s)) (hflags : s.eflags = eflags h) :
    Achieves (body σ) exactly (form.handler T kind) s fun _ s' _ => ∀ ρ,
      maskedCount (form.dst.size T * 8) (form.count T (T.peek s) ρ) < form.dst.size T * 8 →
        (ShiftFlags σ ρ h kind (form.dst.bv T (T.peek s) ρ)
            (maskedCount (form.dst.size T * 8) (form.count T (T.peek s) ρ)) s'.eflags ↔
          ShiftRight σ ρ h kind (form.dst.bv T (T.peek s) ρ)
            (maskedCount (form.dst.size T * 8) (form.count T (T.peek s) ρ)) symbolic) := by
  have hbits : form.dst.size T * 8 ∈ [8, 16, 32, 64] := by
    simp only [List.mem_cons, List.not_mem_nil, or_false] at hn ⊢
    omega
  have hwide : 8 ≤ form.dst.size T * 8 := by
    simp only [List.mem_cons, List.not_mem_nil, or_false] at hbits
    omega
  refine (shift_achieves hP hb hcl hs hv form hn hready kind).mono fun _ s' _ hdone ρ hc => ?_
  rcases hdone with ⟨hnot, hlets⟩ | ⟨hans, hsets⟩
  · rw [hlets.flags, hflags]
    exact shift_concrete_iff (Bool.eq_false_iff.2 (mt hsym.1 hnot))
  · obtain ⟨res, dst, count, hres, hdst, heq⟩ := hsets.flags
    have hvalue : shiftValue T (T.peek s) form kind ρ = shift kind (form.dst.bv T (T.peek s) ρ)
        (maskedCount (form.dst.size T * 8) (form.count T (T.peek s) ρ)) := by
      rw [shiftValue, maskedCount_eq hbits hc]
    rw [heq, hflags]
    exact shift_recorded_iff (hsym.2 hans) hwide (hvalue ▸ hres.at ρ) (hdst.at ρ)

end Handlers

open X86Reg (process shadow)

/-- `SHL AL, imm` with an input byte in `AL`. -/
def shlForm (imm : Addr) : ShiftForm X86Reg :=
  .regImm .al imm

theorem shlForm_answers (imm : Addr) :
    (shlForm imm).Answers process (process.peek (shadow [0])) := by
  refine .inl fun hnull => ?_
  have hread : process.peek (shadow [0]) (.reg .rax 0) = none :=
    hnull (.reg .rax 0) (by decide)
  cases hread

/-- `SHL AL, 1` -/
theorem instrumentShift_flags_one : ∃ s' l w',
    Runs (body quietSession) (process.instrumentShiftRegImm .al 1 .shl (shadow [0])) (freshWorld 1)
      ((), s', l) w' ∧ ShiftFlags quietSession (fun _ => 5) [] .shl (5 : BitVec 8) 1 s'.eflags := by
  have h := instrumentShift_flags_iff (h := []) X86Reg.registers_documented (T := process) rfl rfl
    (X86Reg.shadow_init_wellFormed [0]) (X86Reg.shadow_consistent [0]) (shlForm 1) (by decide)
    (X86Reg.tracked (by decide)) .shl (iff_of_true rfl (shlForm_answers 1)) rfl
  obtain ⟨_, s', l, w', hr, hflags⟩ :=
    exists_run (n := 40) (w := freshWorld 1) h (by decide +kernel)
  exact ⟨s', l, w', hr, (hflags (fun _ => 5) (by decide)).2 ⟨nofun, fun _ _ => rfl, nofun, nofun⟩⟩

/-- `SHL AL, 2` of 64: the last bit shifted out is set, the highest is not. -/
theorem instrumentShift_not_flags : ∃ s' l w',
    Runs (body quietSession) (process.instrumentShiftRegImm .al 2 .shl (shadow [0])) (freshWorld 1)
      ((), s', l) w' ∧ ¬ ShiftFlags quietSession (fun _ => 64) [] .shl (64 : BitVec 8)
        2 s'.eflags := by
  have h := shift_achieves X86Reg.registers_documented (T := process) rfl rfl
    (X86Reg.shadow_init_wellFormed [0]) (X86Reg.shadow_consistent [0]) (shlForm 2) (by decide)
    (X86Reg.tracked (by decide)) .shl
  obtain ⟨_, s', l, w', hr, hdone⟩ := exists_run (n := 40) (w := freshWorld 1) h (by decide +kernel)
  refine ⟨s', l, w', hr, fun hflags => ?_⟩
  rcases hdone with ⟨hnot, -⟩ | ⟨-, hsets⟩
  · exact hnot (shlForm_answers 2)
  · obtain ⟨res, dst, count, hres, hdst, heq⟩ := hsets.flags
    rw [heq] at hflags
    have hright : ShiftRight quietSession (fun _ => 64) [] .shl (64 : BitVec 8) 2 true :=
      (shift_recorded_iff rfl le_rfl (hres.at _) (hdst.at _)).1 hflags
    have hends : (64 : BitVec 8).getLsbD 6 = (64 : BitVec 8).msb := hright.ends nofun rfl
    exact absurd hends (by decide)

end Process

end Qsym
