import Qsym.Bits.Lanes
import Qsym.Flags.Recorded
import Qsym.Instrument.Result

/-!
# Qsym.Instrument.BitScan

`BSF`, `BSR`, `TZCNT` and `LZCNT`. Two loops over the bits serve all four: the last bit that
is set wins. The loop that goes down starts below the highest bit and so misses an operand
that has no other, `LZCNT` gets the index that `BSR` wants, and both counts the `ZF` of the
scans.
-/

namespace X86

/-- The instructions that look for a bit. -/
inductive ScanOp
  | bsf | bsr | tzcnt | lzcnt
  deriving DecidableEq, Repr

namespace ScanOp

variable {n : Nat}

/-- The result, where there is one. -/
def result (x : BitVec n) : ScanOp → Option Nat
  | bsf => if x = 0 then none else some x.ctz.toNat
  | bsr => if x = 0 then none else some (n - 1 - x.clz.toNat)
  | tzcnt => some x.ctz.toNat
  | lzcnt => some x.clz.toNat

/-- `ZF`. -/
def zf (x : BitVec n) : ScanOp → Bool
  | bsf | bsr => x == 0
  | tzcnt => x.ctz == 0
  | lzcnt => x.clz == 0

end ScanOp

variable {n : Nat} {x : BitVec n}

theorem ctz_le (x : BitVec n) : x.ctz.toNat ≤ n := by
  rw [BitVec.ctz_eq_reverse_clz]
  simpa [BitVec.le_def] using BitVec.clz_le (x := x.reverse)

theorem ctz_lt_iff : x.ctz.toNat < n ↔ x ≠ 0 := by
  simpa [BitVec.lt_def] using BitVec.ctz_lt_iff_ne_zero (x := x)

theorem clz_lt_iff : x.clz.toNat < n ↔ x ≠ 0 := by
  simpa [BitVec.lt_def] using BitVec.clz_lt_iff_ne_zero (x := x)

theorem clz_le (x : BitVec n) : x.clz.toNat ≤ n := by
  simpa [BitVec.le_def] using BitVec.clz_le (x := x)

/-- The lowest bit that is set is the highest one only if there is no other. -/
theorem ctz_eq_last_iff (hn : 0 < n) : x.ctz.toNat = n - 1 ↔ x = BitVec.intMin n := by
  constructor
  · intro h
    have hne : x ≠ 0 := ctz_lt_iff.1 (by omega)
    apply BitVec.eq_of_getLsbD_eq
    intro i hi
    rw [BitVec.getLsbD_intMin]
    by_cases hlast : i + 1 = n
    · have hset := BitVec.getLsbD_true_ctz_of_ne_zero hne
      rw [h, show n - 1 = i by omega] at hset
      rw [hset, decide_eq_true hlast]
    · rw [BitVec.getLsbD_false_of_lt_ctz (by omega), decide_eq_false hlast]
  · rintro rfl
    have hset := BitVec.getLsbD_true_ctz_of_ne_zero (x := BitVec.intMin n)
      (mt BitVec.intMin_eq_zero_iff.1 hn.ne')
    rw [BitVec.getLsbD_intMin, decide_eq_true_eq] at hset
    omega

/-- The lowest bit is set if and only if no zeros come before it. -/
theorem ctz_eq_zero_iff (hn : 0 < n) : x.ctz = 0 ↔ x.getLsbD 0 = true := by
  constructor
  · intro h
    have hne : x ≠ 0 := ctz_lt_iff.1 (by rw [h]; exact hn)
    have hset := BitVec.getLsbD_true_ctz_of_ne_zero hne
    rwa [h] at hset
  · intro h
    by_contra hne
    have hpos : 0 < x.ctz.toNat := Nat.pos_of_ne_zero fun h0 => hne (BitVec.eq_of_toNat_eq h0)
    rw [BitVec.getLsbD_false_of_lt_ctz hpos] at h
    cases h

theorem clz_eq_zero_iff (hn : 0 < n) : x.clz = 0 ↔ x.msb = true := by
  rw [← BitVec.toNat_inj, BitVec.ofNat_eq_ofNat, BitVec.toNat_ofNat, Nat.zero_mod,
    BitVec.clz_eq_zero_iff hn, BitVec.msb_eq_decide, decide_eq_true_eq]

/-! ### The loops -/

/-- The last of the bits that is set, and `r` if none is. -/
def scan (x : BitVec n) : List Nat → Nat → Nat
  | [], r => r
  | i :: is, r => scan x is (if x.getLsbD i then i else r)

theorem scan_append (is js : List Nat) (r : Nat) : scan x (is ++ js) r =
    scan x js (scan x is r) := by
  induction is generalizing r with
  | nil => rfl
  | cons i is ih => exact ih _

/-- Down to bit 0, from below bit `m`. -/
theorem scan_down {m : Nat} (hm : m ≤ n) (r : Nat) :
    scan x (List.range m).reverse r = if x.ctz.toNat < m then x.ctz.toNat else r := by
  induction m generalizing r with
  | zero => rfl
  | succ m ih =>
      rw [List.range_succ, List.reverse_append, List.reverse_singleton, List.singleton_append, scan,
        ih (by omega)]
      rcases Nat.lt_trichotomy x.ctz.toNat m with hlt | heq | hgt
      · rw [if_pos hlt, if_pos (Nat.lt_succ_of_lt hlt)]
      · have hset := BitVec.getLsbD_true_ctz_of_ne_zero
            (ctz_lt_iff.1 (show x.ctz.toNat < n by omega))
        rw [heq] at hset
        rw [hset, heq, if_neg (Nat.lt_irrefl m), if_pos rfl, if_pos (Nat.lt_succ_self m)]
      · rw [if_neg (Nat.lt_asymm hgt), if_neg (Nat.not_lt.2 hgt),
          BitVec.getLsbD_false_of_lt_ctz hgt]
        rfl

/-- Up from bit 0, past the highest bit that is set. -/
theorem scan_up {k m : Nat} (hset : x.getLsbD k = true) (habove : ∀ i, k < i → x.getLsbD i = false)
    (hm : k + 1 ≤ m) (r : Nat) : scan x (List.range m) r = k := by
  induction m, hm using Nat.le_induction with
  | base => rw [List.range_succ, scan_append, scan, hset, if_pos rfl, scan]
  | succ m hm ih => rw [List.range_succ, scan_append, ih, scan, habove m hm, if_neg nofun, scan]

theorem scan_zero (is : List Nat) (r : Nat) : scan (0 : BitVec n) is r = r := by
  induction is with
  | nil => rfl
  | cons i is ih => simpa [scan] using ih

theorem scan_le {is : List Nat} (his : ∀ i ∈ is, i ≤ n) {r : Nat} (hr : r ≤ n) :
    scan x is r ≤ n := by
  induction is generalizing r with
  | nil => exact hr
  | cons i is ih =>
      refine ih (fun j hj => his j (List.mem_cons_of_mem _ hj)) ?_
      split
      · exact his i List.mem_cons_self
      · exact hr

/-- The bits that the handlers look at. -/
def ScanOp.bits (n : Nat) : ScanOp → List Nat
  | .bsf | .tzcnt => (List.range (n - 1)).reverse
  | .bsr | .lzcnt => List.range n

theorem ScanOp.lt_of_mem_bits (op : ScanOp) {i : Nat} (hi : i ∈ op.bits n) : i < n := by
  cases op with
  | bsf | tzcnt =>
      rw [ScanOp.bits, List.mem_reverse, List.mem_range] at hi
      omega
  | bsr | lzcnt => exact List.mem_range.1 hi

theorem ScanOp.result_le (op : ScanOp) {r : Nat} (hr : op.result x = some r) : r ≤ n := by
  have hctz := ctz_le x
  have hclz := clz_le x
  cases op with
  | bsf | bsr =>
      rw [ScanOp.result] at hr
      split at hr
      · cases hr
      · obtain rfl := Option.some.inj hr
        omega
  | tzcnt | lzcnt =>
      obtain rfl := Option.some.inj hr
      assumption

/-- Numbers up to the width are different as bit vectors. -/
theorem ofNat_inj_of_le {a b : Nat} (ha : a ≤ n) (hb : b ≤ n) :
    BitVec.ofNat n a = BitVec.ofNat n b ↔ a = b := by
  have hlt : n < 2 ^ n := Nat.lt_two_pow_self
  rw [← BitVec.toNat_inj, BitVec.toNat_ofNat, BitVec.toNat_ofNat, Nat.mod_eq_of_lt (by omega),
    Nat.mod_eq_of_lt (by omega)]

/-- The index of the highest bit that is set. -/
theorem scan_range (hn : 0 < n) (hx : x ≠ 0) : scan x (List.range n) n = n - 1 - x.clz.toNat := by
  have hlt : x.clz.toNat < n := clz_lt_iff.2 hx
  refine scan_up (BitVec.getLsbD_true_clz_of_ne_zero hn hx) (fun i hi => ?_) (by omega) n
  refine Nat.testBit_lt_two_pow ?_
  exact BitVec.toNat_lt_two_pow_sub_clz.trans_le (Nat.pow_le_pow_right Nat.two_pos (by omega))

/-- The result of the loop is the one of the machine. -/
def ScanFits (x : BitVec n) : ScanOp → Prop
  | .bsf | .tzcnt => x ≠ BitVec.intMin n
  | .bsr => True
  | .lzcnt => x = 0

/-- A `ZF` that says whether the source is zero is the one of the machine. -/
def ScanZfFits (x : BitVec n) : ScanOp → Prop
  | .bsf | .bsr => True
  | .tzcnt => x ≠ 0 ∧ x.getLsbD 0 = false
  | .lzcnt => x ≠ 0 ∧ x.msb = false

instance (x : BitVec n) : (op : ScanOp) → Decidable (ScanFits x op)
  | .bsf | .tzcnt => inferInstanceAs (Decidable (x ≠ BitVec.intMin n))
  | .bsr => inferInstanceAs (Decidable True)
  | .lzcnt => inferInstanceAs (Decidable (x = 0))

theorem scan_eq_iff (hn : 0 < n) (heven : 2 ∣ n) (op : ScanOp) {r : Nat}
    (hr : op.result x = some r) :
    scan x (op.bits n) n = r ↔ ScanFits x op := by
  have hdown : scan x (List.range (n - 1)).reverse n = x.ctz.toNat ↔ x ≠ BitVec.intMin n := by
    rw [scan_down (Nat.sub_le n 1), Ne, ← ctz_eq_last_iff hn]
    have hle := ctz_le x
    split <;> omega
  cases op with
  | bsf =>
      rw [ScanOp.result] at hr
      split at hr
      · cases hr
      · obtain rfl := Option.some.inj hr
        exact hdown
  | tzcnt =>
      obtain rfl := Option.some.inj hr
      exact hdown
  | bsr =>
      rw [ScanOp.result] at hr
      split at hr
      · cases hr
      · obtain rfl := Option.some.inj hr
        exact iff_of_true (scan_range hn ‹_›) trivial
  | lzcnt =>
      obtain rfl := Option.some.inj hr
      by_cases hx : x = 0
      · refine iff_of_true ?_ hx
        have hnot : ¬ x.clz.toNat < n := mt clz_lt_iff.1 (not_not.2 hx)
        have hle := clz_le x
        rw [hx, scan_zero, ← hx]
        omega
      · refine iff_of_false ?_ hx
        have hlt : x.clz.toNat < n := clz_lt_iff.2 hx
        rw [ScanOp.bits, scan_range hn hx]
        omega

theorem zf_eq_iff (hn : 0 < n) (op : ScanOp) : (x == 0) = op.zf x ↔ ScanZfFits x op := by
  -- a count is zero if and only if a certain bit is set, which is not so for zero
  have hcount {c : BitVec n} {b : Bool} (hc : c = 0 ↔ b = true) (hzero : x = 0 → b = false) :
      (x == 0) = (c == 0) ↔ x ≠ 0 ∧ b = false := by
    rw [Bool.eq_iff_iff, beq_iff_eq, beq_iff_eq, hc]
    by_cases hx : x = 0
    · simp [hx, hzero hx]
    · rw [iff_false_left hx, Bool.not_eq_true, Ne, and_iff_right hx]
  cases op with
  | bsf | bsr => exact iff_of_true rfl trivial
  | tzcnt => exact hcount (ctz_eq_zero_iff hn) fun h => by simp [h]
  | lzcnt => exact hcount (clz_eq_zero_iff hn) fun h => by simp [h]

end X86

namespace Qsym

open Procedure X86

/-- The argument that `analyzeInstruction` passes to `analyzeBs`. -/
def ScanOp.inv : ScanOp → Bool
  | .bsf | .tzcnt => false
  | .bsr | .lzcnt => true

/-- The operands of the handlers of bit scans. -/
inductive BsForm (Reg : Type)
  | regReg (dst src : Reg)
  | regMem (dst : Reg) (m : MemArg Reg)

namespace BsForm

variable {Reg : Type} [DecidableEq Reg] (T : Process Reg)

def handler (op : ScanOp) : BsForm Reg → Handler Reg Unit
  | regReg dst src => T.instrumentBsRegReg dst src (ScanOp.inv op)
  | regMem dst m => T.instrumentBsRegMem dst m (ScanOp.inv op)

def dstReg : BsForm Reg → Reg
  | regReg dst _ | regMem dst _ => dst

def dst (form : BsForm Reg) : Operand Reg :=
  .reg form.dstReg

def src : BsForm Reg → Operand Reg
  | regReg _ src => .reg src
  | regMem _ m => .mem m.addr m.size

/-- The value of the source, which has the size of the destination. -/
def srcBv (v : ShadowMap Reg) (form : BsForm Reg) (ρ : Input) : BitVec (form.dst.size T * 8) :=
  (form.src.bv T v ρ).setWidth _

/-- The source can be read, and the destination can be written. -/
def Ready : BsForm Reg → Prop
  | regReg dst src => T.Tracked dst ∧ T.Tracked src
  | regMem dst m => T.Tracked dst ∧ T.Addressed m

variable {T} in
theorem Ready.dst {form : BsForm Reg} (h : form.Ready T) : T.Tracked form.dstReg := by
  cases form with
  | regReg => exact h.1
  | regMem => exact h.1

end BsForm

namespace Process

open Handler Stateful
open SymbolicExprBuilder (chain)

variable {Reg : Type} [DecidableEq Reg] {T : Process Reg} {σ : Session} {s : Shadow}
variable {n : Nat} {src one res : Expr} {x : Input → BitVec n} {r : Input → Nat}

/-! ### What the loops build -/

theorem scanBits_builds (hsrc : Expresses n x src) (hone : Expresses 1 (fun _ => 1) one)
    {is : List Nat} (his : ∀ i ∈ is, i < n)
    (hres : Expresses n (fun ρ => BitVec.ofNat n (r ρ)) res) :
    Builds σ exactly (chain.scanBits src one n is res)
      (Expresses n fun ρ => BitVec.ofNat n (scan (x ρ) is (r ρ))) := by
  induction is generalizing res r with
  | nil => exact .ret hres
  | cons i is ih =>
      have hi : i < n := his i List.mem_cons_self
      refine Total.bind (hsrc.extract_builds Nat.one_pos hi) fun bit hbit => ?_
      refine Total.bind (hbit.compare_builds .equal hone) fun isOne hisOne => ?_
      refine Total.bind (Expresses.createConstant_builds i (by omega)) fun index hindex => ?_
      refine Total.bind (hisOne.ite_builds hindex hres) fun res' hres' => ?_
      refine ih (fun j hj => his j (List.mem_cons_of_mem _ hj)) (hres'.congr fun ρ => ?_)
      rw [CompareKind.holds, Bits.extractLsb'_beq_one, ← apply_ite]

/-- The loop that the handlers run. -/
theorem doScan_builds (hsrc : Expresses n x src) (hn : 0 < n) (op : ScanOp) :
    Builds σ exactly (if ScanOp.inv op then chain.doBsr src else chain.doBsf src)
      (Expresses n fun ρ => BitVec.ofNat n (scan (x ρ) (op.bits n) n)) := by
  have hloop (is : List Nat) (his : ∀ i ∈ is, i < n) : Builds σ exactly (do
      let one ← chain.createConstant 1 1
      let res ← chain.createConstant n n
      chain.scanBits src one n is res)
      (Expresses n fun ρ => BitVec.ofNat n (scan (x ρ) is n)) := by
    refine Total.bind (Expresses.createConstant_builds 1 Nat.one_pos) fun one hone => ?_
    refine Total.bind (Expresses.createConstant_builds n hn) fun res hres => ?_
    exact scanBits_builds hsrc hone his (hres.congr fun _ => rfl)
  have hdown : Builds σ exactly (chain.doBsf src)
      (Expresses n fun ρ => BitVec.ofNat n (scan (x ρ) (List.range (n - 1)).reverse n)) := by
    rw [ExprBuilder.doBsf, hsrc.bits]
    exact hloop _ fun i hi => ScanOp.bsf.lt_of_mem_bits hi
  have hup : Builds σ exactly (chain.doBsr src)
      (Expresses n fun ρ => BitVec.ofNat n (scan (x ρ) (List.range n) n)) := by
    rw [ExprBuilder.doBsr, hsrc.bits]
    exact hloop _ fun i hi => ScanOp.bsr.lt_of_mem_bits hi
  cases op with
  | bsf | tzcnt => exact hdown
  | bsr | lzcnt => exact hup

/-! ### The handlers -/

/-- From `v`, the handler has put the result of the loop, and recorded whether the source is zero.
-/
structure Scanned (σ : Session) (T : Process Reg) (v : ShadowMap Reg)
    (form : BsForm Reg) (op : ScanOp)
    (s' : Shadow) : Prop where
  puts : ∃ v₁, Fades v v₁ ∧ T.Puts v₁ (T.peek s') form.dst fun ρ => BitVec.ofNat _
    (scan (form.srcBv T v ρ) (op.bits (form.dst.size T * 8)) (form.dst.size T * 8))
  zf : ∀ ρ, s'.eflags.Reports σ ρ .zf (form.srcBv T v ρ == 0)

section Handlers

variable (hP : T.pin.Documented) (hb : T.builder = SymbolicExprBuilder.chain) (hs : s.WellFormed)
  (hv : T.Consistent σ.input (T.peek s)) (form : BsForm Reg)
  (hn : form.dst.size T ∈ [2, 4, 8]) (hsrc : form.src.size T = form.dst.size T)

include hP hb hn

theorem doBs_scanned {v : ShadowMap Reg} (hfades : Fades v (T.peek s))
    (hdst : T.Tracked form.dstReg)
    (hx : Expresses (form.dst.size T * 8) (form.srcBv T v) src) (op : ScanOp) :
    Achieves (body σ) exactly (T.doBs form.dstReg src (ScanOp.inv op)) s fun _ s' _ =>
      Scanned σ T v form op s' := by
  have hsize : 8 ≤ form.dst.size T * 8 ∧ form.dst.size T ≤ 2 ^ 64 := by
    simp only [List.mem_cons, List.not_mem_nil, or_false] at hn
    omega
  unfold doBs
  rw [hb, hx.bits]
  refine Achieves.lift_bind (Expresses.createConstant_builds 0 (by omega)) fun zero hzero => ?_
  refine onEflags_bind ?_
  have hperf (ρ : Input) : Performs ρ ⟨.sub, some src, some src, some zero⟩
      (.sub (form.dst.size T * 8) (form.srcBv T v ρ) 0) := by
    refine .sub hsize.1 ((hx.at ρ).congr fun _ _ => ?_) (hx.at ρ) (hzero.at ρ)
    exact (BitVec.sub_zero _).symm
  have hput (res : Expr) (hres : Expresses (form.dst.size T * 8) (fun ρ => BitVec.ofNat _
      (scan (form.srcBv T v ρ) (op.bits (form.dst.size T * 8)) (form.dst.size T * 8))) res) :
      Achieves (body σ) exactly (T.setExprToReg form.dstReg (some res))
        { s with eflags := s.eflags.set .sub (some src) (some src) (some zero) } fun _ s' _ =>
          Scanned σ T v form op s' := by
    refine Achieves.mono (set_achieves hP hb (o := form.dst) hdst hsize.2 hres) ?_
    intro _ s' _ ⟨heq, hputs⟩
    refine ⟨⟨_, hfades, hputs⟩, fun ρ => heq ▸ (hperf ρ).reports ?_ s.eflags⟩
    exact congrArg (fun r => some (r == 0)) (BitVec.sub_zero _)
  have hscan := doScan_builds (σ := σ) hx (by omega) op
  split
  next h =>
      rw [if_pos h] at hscan
      exact Achieves.lift_bind hscan hput
  next h =>
      rw [if_neg h] at hscan
      exact Achieves.lift_bind hscan hput

include hs hv hsrc

theorem bs_scanned (hready : form.Ready T) (op : ScanOp) :
    Achieves (body σ) exactly (form.handler T op) s fun _ s' _ =>
      (∀ k ∈ form.src.places T, ¬ Symbolic (T.peek s) k) ∨ Scanned σ T (T.peek s) form op s' := by
  have hcomputing {p : Handler Reg (Option Expr)} {concrete : Handler Reg Unit}
      (hp : Gets σ T p form.src) (hreads : Returns (body σ) exactly p s)
      (hconcrete : ∀ s₁, Returns (body σ) exactly concrete s₁) : Achieves (body σ) exactly
        (computing p concrete fun e => T.doBs form.dstReg e (ScanOp.inv op)) s fun _ s' _ =>
          (∀ k ∈ form.src.places T, ¬ Symbolic (T.peek s) k) ∨
            Scanned σ T (T.peek s) form op s' := by
    refine computing_achieves (fetches_get hs hv hp) hreads (fun s₁ _ hidle => ?_)
      fun s₁ e h₁ he => ?_
    · exact (hconcrete s₁).achieves fun _ _ _ _ _ =>
        .inl fun k hk => hidle.not_symbolic List.mem_cons_self hk
    · have he : Expresses (form.dst.size T * 8) (form.srcBv T (T.peek s)) e :=
        he.setWidth (by rw [hsrc])
      exact (doBs_scanned hP hb form hn h₁.fades hready.dst he op).mono fun _ _ _ h => .inr h
  have hclears {p : Handler Reg Unit} (hp : ∀ s₁, Returns (body σ) exactly p s₁) (s₁ : Shadow) :
      Returns (body σ) exactly (do
        p
        invalidateEflags .sub) s₁ :=
    Returns.bind (P := fun _ _ _ => True) (hp s₁) (fun _ _ _ _ _ => trivial) fun _ _ _ _ => .ret ()
  cases form with
  | regReg dst src =>
      exact hcomputing (get_gets hP hb (.reg src)) (getExprFromReg_returns hP hb hs hready.2)
        (hclears fun _ => clearExprFromReg_returns hready.1)
  | regMem dst m =>
      exact hcomputing (getExprFromMemSrc_gets hP hb m)
        (getExprFromMemSrc_returns hP hb hs hready.2)
        (hclears fun _ => clearExprFromMem_returns m.addr m.size)

/-- **Bit scans and zero counts.** For every opcode, form, width and source that depends on the
input, and every input: where the machine has a result, the destination shows it if and only
if `ScanFits` holds of the source, and the recorded `ZF` is the one of the machine if and only
if `ScanZfFits` does. -/
theorem instrumentBs_result_iff (hready : form.Ready T) (op : ScanOp) :
    Achieves (body σ) exactly (form.handler T op) s fun _ s' _ =>
      (∀ k ∈ form.src.places T, ¬ Symbolic (T.peek s) k) ∨ ∀ ρ,
        (∀ r, op.result (form.srcBv T (T.peek s) ρ) = some r →
          (T.Shows (T.peek s') form.dst ρ (BitVec.ofNat _ r) ↔
            ScanFits (form.srcBv T (T.peek s) ρ) op)) ∧
        (s'.eflags.Reports σ ρ .zf (op.zf (form.srcBv T (T.peek s) ρ)) ↔
          ScanZfFits (form.srcBv T (T.peek s) ρ) op) := by
  have hsize : 0 < form.dst.size T * 8 ∧ 2 ∣ form.dst.size T * 8 := by
    simp only [List.mem_cons, List.not_mem_nil, or_false] at hn
    omega
  refine (bs_scanned hP hb hs hv form hn hsrc hready op).mono fun _ s' _ h => h.imp_right ?_
  rintro ⟨⟨v₁, _, hputs⟩, hzf⟩ ρ
  constructor
  · intro r hr
    rw [(hputs.shows ρ).iff_eq, ← scan_eq_iff hsize.1 hsize.2 op hr]
    exact ofNat_inj_of_le (scan_le (fun i hi => (op.lt_of_mem_bits hi).le) le_rfl) (op.result_le hr)
  · rw [← zf_eq_iff hsize.1 op]
    constructor
    · intro h
      exact (hzf ρ).unique h
    · intro h
      exact h ▸ hzf ρ

end Handlers

open X86Reg (process shadow)

/-- A scan of `DX` into `AX`. -/
def scanDx : BsForm X86Reg :=
  .regReg .ax .dx

/-- The cell of byte `i` of `DX`. -/
def dxCell (i : Nat) : Nat := 24 + i

/-- `BSF AX, DX` of eight. -/
theorem instrumentBs_result_eight : ∃ s' l w',
    Runs (body quietSession) (process.instrumentBsRegReg .ax .dx false (shadow [dxCell 0]))
      (freshWorld 1) ((), s', l) w' ∧
      process.Shows (process.peek s') (.reg .ax) (fun _ => 8) (3 : BitVec 16) ∧
      s'.eflags.Reports quietSession (fun _ => 8) .zf false := by
  have h := instrumentBs_result_iff X86Reg.registers_documented (T := process) rfl
    (X86Reg.shadow_init_wellFormed [dxCell 0]) (X86Reg.shadow_consistent [dxCell 0])
      scanDx (by decide)
    rfl ⟨X86Reg.tracked (by decide), X86Reg.tracked (by decide)⟩ .bsf
  obtain ⟨_, s', l, w', hr, hnone | hiff⟩ :=
    exists_run (n := 40) (w := freshWorld 1) h (by decide +kernel)
  · exact absurd ⟨.read 0, rfl, by decide⟩ (hnone (.reg .rdx 0) (by decide))
  · obtain ⟨hshows, hzf⟩ := hiff fun _ => 8
    have hzero : (scanDx.srcBv process (process.peek (shadow [dxCell 0])) fun _ => 8) ≠ 0 := by
      decide +kernel
    refine ⟨s', l, w', hr, (hshows 3 (by decide +kernel)).2 (by decide +kernel), ?_⟩
    have hzf := hzf.2 trivial
    rwa [ScanOp.zf, beq_eq_false_iff_ne.2 hzero] at hzf

/-- `BSF AX, DX` of `2^15`: no bit below the highest one is set. -/
theorem instrumentBs_not_result : ∃ s' l w',
    Runs (body quietSession) (process.instrumentBsRegReg .ax .dx false (shadow [dxCell 1]))
      (freshWorld 1) ((), s', l) w' ∧ process.peek s' (.reg .rax 0) ≠ none ∧
      ScanOp.bsf.result (BitVec.intMin 16) = some 15 ∧
      ¬ process.Shows (process.peek s') (.reg .ax) (fun _ => 128) (15 : BitVec 16) := by
  have h := bs_scanned X86Reg.registers_documented (T := process) rfl
    (X86Reg.shadow_init_wellFormed [dxCell 1]) (X86Reg.shadow_consistent [dxCell 1])
      scanDx (by decide)
    rfl ⟨X86Reg.tracked (by decide), X86Reg.tracked (by decide)⟩ .bsf
  obtain ⟨_, s', l, w', hr, hnone | ⟨⟨v₁, -, hputs⟩, -⟩⟩ :=
    exists_run (n := 40) (w := freshWorld 1) h (by decide +kernel)
  · exact absurd ⟨.read 0, rfl, by decide⟩ (hnone (.reg .rdx 1) (by decide))
  · have hshows := hputs.shows fun _ => 128
    refine ⟨s', l, w', hr, ?_, by decide +kernel, fun hlast => ?_⟩
    · obtain ⟨e, he, -⟩ := hshows 0 (by decide)
      exact fun hnone => nomatch hnone.symm.trans he
    · exact absurd (congrArg BitVec.toNat (hshows.iff_eq.1 hlast)) (by decide +kernel)

end Process

end Qsym
