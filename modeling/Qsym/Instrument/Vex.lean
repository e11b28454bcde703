import Mathlib.Tactic.LinearCombination
import Qsym.Instrument.Lanes
import Qsym.Instrument.Logical

/-!
# Qsym.Instrument.Vex

The **VEX forms** with three operands. Most of them are given to the handlers with two sources
and a destination. `VPAND` and the unpack instructions go to the handlers of the forms with two
operands, which take the old destination and the first source; these and the pack instructions
take a register of 256 bits for one lane, where the machine has two of 128. `VPMAXSW` compares
without signs, `VPACKUS*` saturates and `VPMADDWD` multiplies words as if they had none, and
the shifts take the count from the process, all of its bits.
-/

namespace X86

open Qsym Bits

/-- The instructions with two sources that have a case, with the bytes of a lane. -/
inductive VexOp
  | vpand | vpor | vpxor | vxorps
  | vpadd (width : Nat) | vpsub (width : Nat) | vpcmpeq (width : Nat) | vpcmpgt (width : Nat)
  | vpmaxs (width : Nat) | vpmaxu (width : Nat) | vpmins (width : Nat) | vpminu (width : Nat)
  | vpmull (width : Nat) | vpmulhw | vpmulhuw | vpmaddwd | vpshufb
  | vpackss (width : Nat) | vpackus (width : Nat)
  | vpunpckh (width : Nat) | vpunpckl (width : Nat)
  deriving DecidableEq, Repr

/-- The shifts, by a register, memory or an immediate. -/
inductive VexShift
  | vpsll | vpsrl | vpsra
  deriving DecidableEq, Repr

namespace VexOp

/-- The lanes that there is an opcode for. -/
def Handled : VexOp → Prop
  | vpadd w | vpsub w | vpcmpeq w | vpcmpgt w | vpunpckh w | vpunpckl w => w ∈ [1, 2, 4, 8]
  | vpmaxs w | vpmaxu w | vpmins w | vpminu w => w ∈ [1, 2, 4]
  | vpmull w => w ∈ [2, 4]
  | vpackss w | vpackus w => w ∈ [1, 2]
  | _ => True

/-- The handler takes two sources and a destination. -/
def threeOperands : VexOp → Bool
  | vpand | vpunpckh _ | vpunpckl _ => false
  | _ => true

variable {n : Nat}

/-! ### The machine -/

/-- The element that an unpack instruction takes: `e` elements make 128 bits. -/
def unpackIndex (high : Bool) (e j : Nat) : Nat :=
  j / (e / 2) * e + (if high then e / 2 else 0) + j % (e / 2)

/-- Elements of both sources in turn, from one half of every 128 bits. -/
def unpack (w : Nat) (high : Bool) (a b : BitVec n) (i : Nat) : BitVec w :=
  lane w (if i % 2 = 0 then a else b) (unpackIndex high (128 / w) (i / 2))

/-- What the machine saturates to `w` bits: a signed number of twice the bits. -/
def narrowed (sign : Bool) (w : Nat) (x : BitVec (w * 2)) : BitVec w :=
  if sign then saturatedTo true w x
  else saturated .slt .sgt 0 ((BitVec.allOnes w).setWidth (w * 2)) 0 (BitVec.allOnes w) x

/-- The element that a pack instruction saturates: of every 128 bits those of the first source,
and then those of the second. -/
def packElement (w : Nat) (a b : BitVec n) (i : Nat) : BitVec (w * 2) :=
  let q := 64 / w
  if i % (q * 2) < q then lane (w * 2) a (i / (q * 2) * q + i % (q * 2))
  else lane (w * 2) b (i / (q * 2) * q + (i % (q * 2) - q))

/-- The signed product of the words at `i`. -/
def signedProduct (a b : BitVec n) (i : Nat) : BitVec 32 :=
  (lane 16 a i).signExtend 32 * (lane 16 b i).signExtend 32

/-- Every lane is a function of the lanes of the sources. -/
def lanewise (n w : Nat) (f : BitVec w → BitVec w → BitVec w) (a b : BitVec n) : BitVec n :=
  ofLanes n fun i => f (lane w a i) (lane w b i)

/-- The destination of the machine. -/
def machine (op : VexOp) (a b : BitVec n) : BitVec n :=
  match op with
  | vpand => a &&& b
  | vpor => a ||| b
  | vpxor | vxorps => a ^^^ b
  | vpadd w => lanewise n (w * 8) (· + ·) a b
  | vpsub w => lanewise n (w * 8) (· - ·) a b
  | vpcmpeq w => lanewise n (w * 8) (fun x y => if x == y then BitVec.allOnes _ else 0) a b
  | vpcmpgt w => lanewise n (w * 8) (fun x y => if y.slt x then BitVec.allOnes _ else 0) a b
  | vpmaxs w => lanewise n (w * 8) (fun x y => if y.slt x then x else y) a b
  | vpmaxu w => lanewise n (w * 8) (fun x y => if y.ult x then x else y) a b
  | vpmins w => lanewise n (w * 8) (fun x y => if x.slt y then x else y) a b
  | vpminu w => lanewise n (w * 8) (fun x y => if x.ult y then x else y) a b
  | vpmull w => lanewise n (w * 8) (· * ·) a b
  | vpmulhw => lanewise n 16 (fun x y => (x.signExtend 32 * y.signExtend 32).extractLsb' 16 16) a b
  | vpmulhuw => lanewise n 16 (fun x y => (x.setWidth 32 * y.setWidth 32).extractLsb' 16 16) a b
  | vpmaddwd => ofLanes n fun i => signedProduct a b (2 * i) + signedProduct a b (2 * i + 1)
  | vpshufb => ofLanes n fun i =>
      if (lane 8 b i).msb then 0 else lane 8 a (i / 16 * 16 + (lane 8 b i &&& 15).toNat)
  | vpackss w => ofLanes n fun i => narrowed true (w * 8) (packElement (w * 8) a b i)
  | vpackus w => ofLanes n fun i => narrowed false (w * 8) (packElement (w * 8) a b i)
  | vpunpckh w => ofLanes n (unpack (w * 8) true a b)
  | vpunpckl w => ofLanes n (unpack (w * 8) false a b)

/-! ### The handlers -/

/-- The comparison that the cases of `VPMAXS*` pass on. -/
def maxs (w : Nat) : CompareKind :=
  if w = 2 then .ugt else .sgt

/-- What is put into the destination, which held `d`. -/
def computed (op : VexOp) (d a b : BitVec n) : BitVec n :=
  match op with
  | vpand => d &&& a
  | vpor => a ||| b
  | vpxor | vxorps => a ^^^ b
  | vpmaxs w => lanewise n (w * 8) (fun x y => if (maxs w).holds x y then x else y) a b
  | vpmaddwd => ofLanes n fun i => wordProductBv a b (2 * i) + wordProductBv a b (2 * i + 1)
  | vpshufb => ofLanes n (shuffled a b)
  | vpackss w => ofLanes n fun i => saturatedTo true (w * 8) (lane (w * 8 * 2) (b ++ a) i)
  | vpackus w => ofLanes n fun i => saturatedTo false (w * 8) (lane (w * 8 * 2) (b ++ a) i)
  | vpunpckh w => ofLanes n (interleaved (w * 8) (n / 2) d a)
  | vpunpckl w => ofLanes n (interleaved (w * 8) 0 d a)
  | op => op.machine a b

/-! ### Where they are the same -/

/-- What the signs of the words at `i` add to their product, in units of `2 ^ 16`. -/
def signTerms (a b : BitVec n) (i : Nat) : Nat :=
  (if (lane 16 a i).msb then (lane 16 b i).toNat else 0) +
    if (lane 16 b i).msb then (lane 16 a i).toNat else 0

/-- With 256 bits the second half of the first source and the first half of the second are
exchanged, which does not matter if they saturate to the same. -/
def PacksAlike (sign : Bool) (w : Nat) (a b : BitVec n) : Prop :=
  n = 256 → ∀ j < 64 / w, narrowed sign w (lane (w * 2) a (64 / w + j)) =
    narrowed sign w (lane (w * 2) b j)

/-- The elements that the handler takes are those that the machine takes. -/
def UnpacksAlike (w : Nat) (high : Bool) (d a b : BitVec n) : Prop :=
  let off := if high then n / w / 2 else 0
  ∀ j < n / w / 2, lane w d (off + j) = lane w a (unpackIndex high (128 / w) j) ∧
    lane w a (off + j) = lane w b (unpackIndex high (128 / w) j)

/-- The handler puts what the machine does. -/
def Agrees (op : VexOp) (d a b : BitVec n) : Prop :=
  match op with
  | vpand => d &&& a = a &&& b
  | vpmaxs w => w = 2 → ∀ i < n / 16, (lane 16 a i).msb = (lane 16 b i).msb
  | vpmaddwd => ∀ i < n / 32, (signTerms a b (2 * i) + signTerms a b (2 * i + 1)) % 2 ^ 16 = 0
  | vpackss w => PacksAlike true (w * 8) a b
  | vpackus w => (∀ i < n / (w * 8 * 2), (lane (w * 8 * 2) a i).msb = false ∧
      (lane (w * 8 * 2) b i).msb = false) ∧ PacksAlike false (w * 8) a b
  | vpunpckh w => UnpacksAlike (w * 8) true d a b
  | vpunpckl w => UnpacksAlike (w * 8) false d a b
  | _ => True

variable {d a b : BitVec n} {w i j : Nat}

theorem max_ult_iff {x y : BitVec w} :
    ((if y.ult x then x else y) = if y.slt x then x else y) ↔ x.msb = y.msb := by
  rw [BitVec.slt_eq_ult]
  by_cases hmsb : x.msb = y.msb
  · simp [hmsb]
  · have hxy : x ≠ y := fun h => hmsb (congrArg BitVec.msb h)
    have hbne : (y.msb != x.msb) = true := bne_iff_ne.2 (Ne.symm hmsb)
    rw [hbne, Bool.true_xor]
    refine iff_of_false (fun heq => ?_) hmsb
    cases hult : y.ult x with
    | true => exact hxy (by simpa [hult] using heq)
    | false => exact hxy.symm (by simpa [hult] using heq)

/-! #### Products of words -/

/-- A sign is worth `2 ^ 16`. -/
theorem signExtend_word (x : BitVec 16) :
    x.signExtend 32 = x.setWidth 32 - 65536#32 * (if x.msb then 1 else 0) := by
  apply BitVec.eq_of_toNat_eq
  rw [BitVec.toNat_signExtend, BitVec.toNat_sub, BitVec.toNat_setWidth]
  have hlt := x.isLt
  cases x.msb with
  | true =>
      simp
      omega
  | false =>
      simp

theorem signTerms_ofNat (x y : BitVec 16) :
    BitVec.ofNat 32 (if x.msb then y.toNat else 0) = (if x.msb then 1 else 0) * y.setWidth 32 := by
  cases x.msb with
  | true => simp
  | false => simp

theorem signedProduct_eq (a b : BitVec n) (i : Nat) : signedProduct a b i =
    wordProductBv a b i - 65536#32 * BitVec.ofNat 32 (signTerms a b i) := by
  have hsquare : 65536#32 * 65536#32 = 0 := by decide
  rw [signedProduct, wordProductBv, signExtend_word, signExtend_word, signTerms, BitVec.ofNat_add,
    signTerms_ofNat, signTerms_ofNat]
  linear_combination
    ((if (lane 16 a i).msb then 1 else 0) * if (lane 16 b i).msb then 1 else 0) * hsquare

theorem mul_eq_zero_iff (c : Nat) : 65536#32 * BitVec.ofNat 32 c = 0 ↔ c % 2 ^ 16 = 0 := by
  rw [← BitVec.toNat_inj, BitVec.toNat_mul, BitVec.toNat_ofNat, BitVec.toNat_ofNat]
  change 65536 % 2 ^ 32 * (c % 2 ^ 32) % 2 ^ 32 = 0 ↔ _
  omega

theorem pmaddwd_iff : wordProductBv a b i + wordProductBv a b (i + 1) =
    signedProduct a b i + signedProduct a b (i + 1) ↔
      (signTerms a b i + signTerms a b (i + 1)) % 2 ^ 16 = 0 := by
  rw [signedProduct_eq, signedProduct_eq, ← mul_eq_zero_iff, BitVec.ofNat_add]
  constructor
  · intro h
    linear_combination h
  · intro h
    linear_combination h

/-! #### Packing -/

section Pack

/-- The elements that the handler saturates, in 128 bits. -/
theorem packed_128 (hw : w = 8 ∨ w = 16) {a b : BitVec 128} (hi : i < 128 / w) :
    lane (w * 2) (b ++ a) i = packElement w a b i := by
  rw [lane_append (by rcases hw with rfl | rfl <;> decide), packElement]
  rcases hw with rfl | rfl
  · simp only [Nat.reduceMul, Nat.reduceDiv] at hi ⊢
    rw [Nat.div_eq_of_lt hi, Nat.mod_eq_of_lt hi, Nat.zero_mul, Nat.zero_add, Nat.zero_add]
  · simp only [Nat.reduceMul, Nat.reduceDiv] at hi ⊢
    rw [Nat.div_eq_of_lt hi, Nat.mod_eq_of_lt hi, Nat.zero_mul, Nat.zero_add, Nat.zero_add]

theorem forall_lane_append (hw : w = 8 ∨ w = 16) {a b : BitVec 128} {p : BitVec (w * 2) → Prop} :
    (∀ i < 128 / w, p (lane (w * 2) (b ++ a) i)) ↔
      ∀ i < 128 / (w * 2), p (lane (w * 2) a i) ∧ p (lane (w * 2) b i) := by
  have hhalf : 128 / w = 128 / (w * 2) * 2 := by rcases hw with rfl | rfl <;> rfl
  rw [hhalf]
  simp only [lane_append (show w * 2 ∣ 128 by rcases hw with rfl | rfl <;> decide)]
  constructor
  · intro h i hi
    have hlow := h i (by omega)
    have hhigh := h (128 / (w * 2) + i) (by omega)
    rw [if_pos hi] at hlow
    rw [if_neg (by omega), Nat.add_sub_cancel_left] at hhigh
    exact ⟨hlow, hhigh⟩
  · intro h i hi
    split
    next hlow => exact (h i hlow).1
    next hhigh => exact (h _ (by omega)).2

/-- The elements that the handler and the machine saturate at a lane of 256 bits. -/
theorem packed_256 (hw : w = 8 ∨ w = 16) {a b : BitVec 256} (hj : j < 64 / w) :
    (lane (w * 2) (b ++ a) j = lane (w * 2) a j ∧ packElement w a b j = lane (w * 2) a j) ∧
    (lane (w * 2) (b ++ a) (64 / w + j) = lane (w * 2) a (64 / w + j) ∧
      packElement w a b (64 / w + j) = lane (w * 2) b j) ∧
    (lane (w * 2) (b ++ a) (64 / w * 2 + j) = lane (w * 2) b j ∧
      packElement w a b (64 / w * 2 + j) = lane (w * 2) a (64 / w + j)) ∧
    (lane (w * 2) (b ++ a) (64 / w * 3 + j) = lane (w * 2) b (64 / w + j) ∧
      packElement w a b (64 / w * 3 + j) = lane (w * 2) b (64 / w + j)) := by
  simp only [lane_append (show w * 2 ∣ 256 by rcases hw with rfl | rfl <;> decide), packElement]
  rcases hw with rfl | rfl
  · simp only [Nat.reduceMul, Nat.reduceDiv] at hj ⊢
    grind
  · simp only [Nat.reduceMul, Nat.reduceDiv] at hj ⊢
    grind

/-- Lane by lane, in 256 bits: the handler saturates by `f` and the machine by `g`. -/
theorem packs_256_iff (hw : w = 8 ∨ w = 16) {a b : BitVec 256} {f g : BitVec (w * 2) → BitVec w} :
    (∀ i < 256 / w, f (lane (w * 2) (b ++ a) i) = g (packElement w a b i)) ↔
      ∀ j < 64 / w, f (lane (w * 2) a j) = g (lane (w * 2) a j) ∧
        f (lane (w * 2) b (64 / w + j)) = g (lane (w * 2) b (64 / w + j)) ∧
        f (lane (w * 2) a (64 / w + j)) = g (lane (w * 2) b j) ∧
        f (lane (w * 2) b j) = g (lane (w * 2) a (64 / w + j)) := by
  have hq : 256 / w = 64 / w * 4 := by rcases hw with rfl | rfl <;> rfl
  rw [hq]
  constructor
  · intro h j hj
    obtain ⟨h₀, h₁, h₂, h₃⟩ := packed_256 hw (a := a) (b := b) hj
    have hfirst := h j (by omega)
    have hsecond := h (64 / w + j) (by omega)
    have hthird := h (64 / w * 2 + j) (by omega)
    have hfourth := h (64 / w * 3 + j) (by omega)
    rw [h₀.1, h₀.2] at hfirst
    rw [h₁.1, h₁.2] at hsecond
    rw [h₂.1, h₂.2] at hthird
    rw [h₃.1, h₃.2] at hfourth
    exact ⟨hfirst, hfourth, hsecond, hthird⟩
  · intro h i hi
    obtain ⟨j, hj, hcases⟩ : ∃ j < 64 / w, i = j ∨ i = 64 / w + j ∨ i = 64 / w * 2 + j ∨
        i = 64 / w * 3 + j := by
      refine ⟨i % (64 / w), Nat.mod_lt _ (by omega), ?_⟩
      rcases hw with rfl | rfl
      · simp only [Nat.reduceDiv] at hi ⊢
        omega
      · simp only [Nat.reduceDiv] at hi ⊢
        omega
    obtain ⟨h₀, h₁, h₂, h₃⟩ := packed_256 hw (a := a) (b := b) hj
    obtain ⟨hfirst, hfourth, hsecond, hthird⟩ := h j hj
    rcases hcases with rfl | rfl | rfl | rfl
    · rw [h₀.1, h₀.2, hfirst]
    · rw [h₁.1, h₁.2, hsecond]
    · rw [h₂.1, h₂.2, hthird]
    · rw [h₃.1, h₃.2, hfourth]

theorem packss_iff (hn : n = 128 ∨ n = 256) (hw : w = 8 ∨ w = 16) :
    (∀ i < n / w, saturatedTo true w (lane (w * 2) (b ++ a) i) = narrowed true w
      (packElement w a b i)) ↔
      PacksAlike true w a b := by
  rcases hn with rfl | rfl
  · refine iff_of_true (fun i hi => ?_) nofun
    rw [packed_128 hw hi]
    rfl
  · rw [packs_256_iff hw, PacksAlike, imp_iff_right rfl]
    refine forall₂_congr fun j _ => ⟨fun h => h.2.2.1, fun h => ⟨rfl, rfl, h, h.symm⟩⟩

/-! Negative numbers are the largest without a sign. -/

variable {x y : BitVec (w * 2)}

theorem slt_zero (x : BitVec n) : CompareKind.slt.holds x 0 = x.msb :=
  BitVec.slt_zero_eq_msb

theorem ult_zero (x : BitVec n) : CompareKind.ult.holds x 0 = false :=
  (decide_eq_false (Nat.not_lt_zero _) : decide (x.toNat < 0) = false)

theorem narrowed_of_msb (hx : x.msb = true) : narrowed false w x = 0 :=
  if_pos ((slt_zero x).trans hx)

theorem saturatedTo_of_msb (hw : 0 < w) (hx : x.msb = true) :
    saturatedTo false w x = BitVec.allOnes w := by
  have hge := BitVec.msb_eq_true_iff_two_mul_ge.1 hx
  have hdouble : 2 ^ (w * 2) = 2 * 2 ^ (w * 2 - 1) := by
    rw [← Nat.pow_succ']
    congr 1
    omega
  have hpow : 2 ^ w ≤ 2 ^ (w * 2 - 1) := Nat.pow_le_pow_right Nat.two_pos (by omega)
  have hlow : ¬ CompareKind.ult.holds x 0 = true := by
    rw [ult_zero]
    exact Bool.false_ne_true
  have hhigh : ((BitVec.allOnes w).setWidth (w * 2)).ult x = true := by
    rw [BitVec.ult_iff_lt, BitVec.lt_def, BitVec.toNat_setWidth, BitVec.toNat_allOnes,
      Nat.mod_eq_of_lt (by omega)]
    have := Nat.two_pow_pos w
    omega
  exact (if_neg hlow).trans (if_pos hhigh)

theorem saturatedTo_of_not_msb (hw : 0 < w) (hx : x.msb = false) :
    saturatedTo false w x = narrowed false w x := by
  have hmax : ((BitVec.allOnes w).setWidth (w * 2)).msb = false := by
    rw [BitVec.msb_setWidth]
    simp
    omega
  have hlow : CompareKind.slt.holds x 0 = CompareKind.ult.holds x 0 := by
    rw [slt_zero, ult_zero, hx]
  have hhigh : CompareKind.sgt.holds x ((BitVec.allOnes w).setWidth (w * 2)) =
      CompareKind.ugt.holds x ((BitVec.allOnes w).setWidth (w * 2)) := by
    change BitVec.slt _ x = BitVec.ult _ x
    rw [BitVec.slt_eq_ult, hx, hmax]
    simp
  rw [saturatedTo, narrowed, if_neg Bool.false_ne_true, if_neg Bool.false_ne_true,
    saturated, saturated,
    hlow, hhigh]

theorem zero_ne_allOnes (hw : 0 < w) : (0 : BitVec w) ≠ BitVec.allOnes w := by
  intro h
  have := congrArg (BitVec.getLsbD · 0) h
  simp [hw] at this

theorem saturatedTo_eq_iff (hw : 0 < w) : saturatedTo false w x = narrowed false w x ↔
    x.msb = false := by
  cases hx : x.msb with
  | false => exact iff_of_true (saturatedTo_of_not_msb hw hx) rfl
  | true =>
      rw [saturatedTo_of_msb hw hx, narrowed_of_msb hx]
      exact iff_of_false (zero_ne_allOnes hw).symm nofun

/-- Two elements that are exchanged. -/
theorem saturatedTo_swap_iff (hw : 0 < w) :
    saturatedTo false w x = narrowed false w y ∧ saturatedTo false w y = narrowed false w x ↔
      x.msb = false ∧ y.msb = false ∧ narrowed false w x = narrowed false w y := by
  cases hx : x.msb with
  | false =>
      rw [saturatedTo_of_not_msb hw hx]
      cases hy : y.msb with
      | false =>
          rw [saturatedTo_of_not_msb hw hy]
          exact ⟨fun h => ⟨rfl, rfl, h.1⟩, fun h => ⟨h.2.2, h.2.2.symm⟩⟩
      | true =>
          rw [saturatedTo_of_msb hw hy, narrowed_of_msb hy]
          refine iff_of_false (fun h => ?_) nofun
          exact zero_ne_allOnes hw (h.1.symm.trans h.2.symm)
  | true =>
      rw [saturatedTo_of_msb hw hx, narrowed_of_msb hx]
      refine iff_of_false (fun ⟨hone, hzero⟩ => ?_) nofun
      cases hy : y.msb with
      | false =>
          rw [saturatedTo_of_not_msb hw hy] at hzero
          exact zero_ne_allOnes hw (hzero.symm.trans hone.symm)
      | true =>
          rw [saturatedTo_of_msb hw hy] at hzero
          exact zero_ne_allOnes hw hzero.symm

theorem packus_iff (hn : n = 128 ∨ n = 256) (hw : w = 8 ∨ w = 16) :
    (∀ i < n / w, saturatedTo false w (lane (w * 2) (b ++ a) i) = narrowed false w
      (packElement w a b i)) ↔
      (∀ i < n / (w * 2), (lane (w * 2) a i).msb = false ∧ (lane (w * 2) b i).msb = false) ∧
        PacksAlike false w a b := by
  have hpos : 0 < w := by omega
  rcases hn with rfl | rfl
  · rw [PacksAlike]
    refine Iff.trans ?_ (and_iff_left nofun).symm
    refine Iff.trans ?_ (forall_lane_append (p := fun x => x.msb = false) hw)
    refine forall₂_congr fun i hi => ?_
    rw [packed_128 hw hi, saturatedTo_eq_iff hpos]
  · have hhalf : 256 / (w * 2) = 64 / w * 2 := by rcases hw with rfl | rfl <;> rfl
    rw [packs_256_iff hw, hhalf, PacksAlike, imp_iff_right rfl]
    constructor
    · intro h
      have hswap (j : Nat) (hj : j < 64 / w) := (saturatedTo_swap_iff hpos).1 (h j hj).2.2
      refine ⟨fun i hi => ?_, fun j hj => (hswap j hj).2.2⟩
      by_cases hi : i < 64 / w
      · exact ⟨(saturatedTo_eq_iff hpos).1 (h i hi).1, (hswap i hi).2.1⟩
      · obtain ⟨j, rfl⟩ : ∃ j, i = 64 / w + j := ⟨i - 64 / w, by omega⟩
        have hj : j < 64 / w := by omega
        exact ⟨(hswap j hj).1, (saturatedTo_eq_iff hpos).1 (h j hj).2.1⟩
    · rintro ⟨hsign, hsame⟩ j hj
      have hlow := hsign j (by omega)
      have hhigh := hsign (64 / w + j) (by omega)
      exact ⟨(saturatedTo_eq_iff hpos).2 hlow.1, (saturatedTo_eq_iff hpos).2 hhigh.2,
        (saturatedTo_swap_iff hpos).2 ⟨hhigh.1, hlow.2, hsame j hj⟩⟩

end Pack

/-! #### Unpacking -/

theorem unpack_even (w : Nat) (high : Bool) (a b : BitVec n) (j : Nat) :
    unpack w high a b (2 * j) = lane w a (unpackIndex high (128 / w) j) := by
  rw [unpack, if_pos (by omega), Nat.mul_div_cancel_left j Nat.two_pos]

theorem unpack_odd (w : Nat) (high : Bool) (a b : BitVec n) (j : Nat) :
    unpack w high a b (2 * j + 1) = lane w b (unpackIndex high (128 / w) j) := by
  rw [unpack, if_neg (by omega), show (2 * j + 1) / 2 = j by omega]

theorem unpacks_iff (hw : 0 < w) (hn : w * 2 ∣ n) (high : Bool) :
    (∀ i < n / w, interleaved w (if high then n / 2 else 0) d a i = unpack w high a b i) ↔
      UnpacksAlike w high d a b := by
  obtain ⟨k, rfl⟩ := hn
  have hlanes : w * 2 * k / w = k * 2 := by
    rw [Nat.mul_assoc, Nat.mul_div_cancel_left _ hw, Nat.mul_comm]
  have hoff : (if high then w * 2 * k / 2 else 0) = (if high then k else 0) * w := by
    cases high with
    | true => simp [Nat.mul_comm w 2, Nat.mul_assoc, Nat.mul_comm w k]
    | false => simp
  have hlane (x : BitVec (w * 2 * k)) (j off : Nat) :
      x.extractLsb' (j * w + off * w) w = lane w x (off + j) := by
    rw [lane, Nat.add_mul, Nat.add_comm]
  rw [UnpacksAlike, hlanes, hoff, Nat.mul_div_cancel k Nat.two_pos]
  constructor
  · intro h j hj
    have heven := h (2 * j) (by omega)
    have hodd := h (2 * j + 1) (by omega)
    rw [interleaved_even, unpack_even, hlane] at heven
    rw [interleaved_odd, unpack_odd, hlane] at hodd
    exact ⟨heven, hodd⟩
  · intro h i hi
    have hj := h (i / 2) (by omega)
    rcases Nat.mod_two_eq_zero_or_one i with hpar | hpar
    · obtain ⟨j, rfl⟩ : ∃ j, i = 2 * j := ⟨i / 2, by omega⟩
      rw [Nat.mul_div_cancel_left j Nat.two_pos] at hj
      rw [interleaved_even, unpack_even, hlane]
      exact hj.1
    · obtain ⟨j, rfl⟩ : ∃ j, i = 2 * j + 1 := ⟨i / 2, by omega⟩
      rw [show (2 * j + 1) / 2 = j by omega] at hj
      rw [interleaved_odd, unpack_odd, hlane]
      exact hj.2

/-! #### Every instruction -/

/-- The handler puts what the machine does if and only if `Agrees`. -/
theorem computed_eq_machine_iff (op : VexOp) (hop : op.Handled) (hn : n = 128 ∨ n = 256) :
    op.computed d a b = op.machine a b ↔ op.Agrees d a b := by
  have hdvd {w : Nat} (hw : w ∈ [1, 2, 4, 8]) : 0 < w * 8 ∧ w * 8 * 2 ∣ n := by
    rcases hn with rfl | rfl
    · exact (by decide : ∀ w ∈ [1, 2, 4, 8], 0 < w * 8 ∧ w * 8 * 2 ∣ 128) w hw
    · exact (by decide : ∀ w ∈ [1, 2, 4, 8], 0 < w * 8 ∧ w * 8 * 2 ∣ 256) w hw
  have hdvd' {w : Nat} (hw : w ∈ [1, 2, 4, 8]) : w * 8 ∣ n :=
    (Nat.dvd_mul_right _ 2).trans (hdvd hw).2
  have hword : 16 ∣ n := hdvd' (w := 2) (by decide)
  have hdword : 32 ∣ n := hdvd' (w := 4) (by decide)
  have hpack {w : Nat} (hw : w ∈ [1, 2]) : w ∈ [1, 2, 4, 8] ∧ (w * 8 = 8 ∨ w * 8 = 16) :=
    (by decide : ∀ w ∈ [1, 2], w ∈ [1, 2, 4, 8] ∧ (w * 8 = 8 ∨ w * 8 = 16)) w hw
  cases op with
  | vpand => exact Iff.rfl
  | vpmaxs w =>
      have hw : w ∈ [1, 2, 4, 8] := (by decide : ∀ w ∈ [1, 2, 4], w ∈ [1, 2, 4, 8]) w hop
      refine (ofLanes_inj (hdvd hw).1 (hdvd' hw)).trans ?_
      by_cases h2 : w = 2
      · subst h2
        exact (forall₂_congr fun i _ => max_ult_iff).trans (imp_iff_right rfl).symm
      · refine iff_of_true (fun i _ => ?_) fun h => absurd h h2
        simp only [maxs, if_neg h2]
        rfl
  | vpmaddwd => exact (ofLanes_inj (by decide) hdword).trans (forall₂_congr fun i _ => pmaddwd_iff)
  | vpackss w =>
      obtain ⟨hw, h8⟩ := hpack hop
      exact (ofLanes_inj (hdvd hw).1 (hdvd' hw)).trans (packss_iff hn h8)
  | vpackus w =>
      obtain ⟨hw, h8⟩ := hpack hop
      exact (ofLanes_inj (hdvd hw).1 (hdvd' hw)).trans (packus_iff hn h8)
  | vpshufb =>
      refine iff_of_true ((ofLanes_inj (by decide) (hdvd' (w := 1) (by decide))).2
        fun i hi => ?_) trivial
      have hlane : i / 16 * 16 = if 16 ≤ i then 16 else 0 := by
        rcases hn with rfl | rfl <;> split <;> omega
      rw [shuffled, hlane, Nat.add_comm]
  | vpunpckh w =>
      exact (ofLanes_inj (hdvd hop).1 (hdvd' hop)).trans
        (unpacks_iff (hdvd hop).1 (hdvd hop).2 true)
  | vpunpckl w =>
      exact (ofLanes_inj (hdvd hop).1 (hdvd' hop)).trans
        (unpacks_iff (hdvd hop).1 (hdvd hop).2 false)
  | _ => exact iff_of_true rfl trivial

end VexOp

/-! ### Shifts -/

namespace VexShift

variable {n w : Nat} {x : BitVec w} {p q c i : Nat}

/-- The lanes that there is an opcode for. The widest are shifted by bytes. -/
def Handled (op : VexShift) (width : Nat) : Prop :=
  match op with
  | vpsll | vpsrl => width ∈ [2, 4, 8, 16]
  | vpsra => width ∈ [2, 4]

/-- The kind that `analyzeInstruction` passes on. -/
def kind : VexShift → BinaryKind
  | vpsll => .shl
  | vpsrl => .lshr
  | vpsra => .ashr

/-- A lane shifted by any number of bits. -/
def shift (op : VexShift) (x : BitVec w) (c : Nat) : BitVec w :=
  match op with
  | vpsll => x <<< c
  | vpsrl => x >>> c
  | vpsra => x.sshiftRight c

/-- The destination of the machine, shifted by `count` bits. -/
def machine (op : VexShift) (width : Nat) (a : BitVec n) (count : Nat) : BitVec n :=
  ofLanes n fun i => op.shift (lane (width * 8) a i) count

/-- The destination of the handler. The count is cut to the bits of a lane. -/
def computed (op : VexShift) (width : Nat) (a : BitVec n) (count : Nat) : BitVec n :=
  ofLanes n fun i => op.kind.apply (lane (width * 8) a i) (BitVec.ofNat (width * 8) count)

/-- The counts are the same, or every lane is shifted out by the smaller of them. -/
def Agrees (op : VexShift) (width : Nat) (a : BitVec n) (p q : Nat) : Prop :=
  p = q ∨ ∀ i < n / (width * 8), op.shift (lane (width * 8) a i) (min p q) =
    op.shift (lane (width * 8) a i) (width * 8)

variable {op : VexShift}

theorem Handled.mem {width : Nat} (h : op.Handled width) : width ∈ [2, 4, 8, 16] := by
  cases op with
  | vpsra => exact (by decide : ∀ w ∈ [2, 4], w ∈ [2, 4, 8, 16]) _ h
  | _ => exact h

theorem kind_apply (op : VexShift) (x : BitVec w) (c : Nat) :
    op.kind.apply x (BitVec.ofNat w c) = op.shift x (c % 2 ^ w) := by
  rw [← BitVec.toNat_ofNat]
  cases op <;> rfl

theorem shift_add (op : VexShift) (x : BitVec w) (p q : Nat) :
    op.shift (op.shift x p) q = op.shift x (p + q) := by
  cases op with
  | vpsll => exact (BitVec.shiftLeft_add x p q).symm
  | vpsrl => exact (BitVec.shiftRight_add x p q).symm
  | vpsra => exact (BitVec.sshiftRight_add ..).symm

/-- A count of `w` and more shifts everything out. -/
theorem shift_of_le (op : VexShift) (x : BitVec w) (hc : w ≤ c) : op.shift x c = op.shift x w := by
  cases op with
  | vpsll =>
      rw [shift, shift, BitVec.shiftLeft_eq_zero hc, BitVec.shiftLeft_eq_zero (Nat.le_refl w)]
  | vpsrl =>
      rw [shift, shift, BitVec.ushiftRight_eq_zero hc, BitVec.ushiftRight_eq_zero (Nat.le_refl w)]
  | vpsra =>
      apply BitVec.eq_of_getLsbD_eq
      intro i hi
      simp only [shift, BitVec.getLsbD_sshiftRight]
      rw [if_neg (by omega), if_neg (by omega)]

/-- If more bits change nothing, then everything has been shifted out. -/
theorem shift_eq_iff (op : VexShift) (x : BitVec w) (h : p ≤ q) :
    op.shift x p = op.shift x q ↔ p = q ∨ op.shift x p = op.shift x w := by
  obtain ⟨c, rfl⟩ := Nat.exists_eq_add_of_le h
  constructor
  · intro heq
    rcases Nat.eq_zero_or_pos c with rfl | hc
    · exact .inl rfl
    · have hmore (k : Nat) : op.shift x (p + c * k) = op.shift x p := by
        induction k with
        | zero => rfl
        | succ k ih =>
            calc op.shift x (p + c * (k + 1))
                = op.shift (op.shift x (p + c)) (c * k) := by
                  rw [shift_add, Nat.mul_succ]; congr 1; omega
              _ = op.shift x p := by rw [← heq, shift_add, ih]
      have hout : w ≤ p + c * w := by
        have := Nat.le_mul_of_pos_left w hc
        omega
      exact .inr ((hmore w).symm.trans (shift_of_le op x hout))
  · rintro (heq | heq)
    · rw [← heq]
    · rw [← shift_add, heq, shift_add]
      exact (shift_of_le op x (Nat.le_add_right w c)).symm

theorem shift_eq_iff_min (op : VexShift) (x : BitVec w) :
    op.shift x p = op.shift x q ↔ p = q ∨ op.shift x (min p q) = op.shift x w := by
  rcases Nat.le_total p q with h | h
  · rw [Nat.min_eq_left h]
    exact shift_eq_iff op x h
  · rw [Nat.min_eq_right h, eq_comm, shift_eq_iff op x h, eq_comm (a := p)]

theorem computed_eq_machine_iff (op : VexShift) {width : Nat} {a : BitVec n} (hw : 0 < width)
    (hn : width * 8 ∣ n) : op.computed width a p = op.machine width a q ↔
      op.Agrees width a (p % 2 ^ (width * 8)) q := by
  refine (ofLanes_inj (by omega) hn).trans ?_
  have hlane (i : Nat) := (Eq.congr_left (kind_apply op (lane (width * 8) a i) p)).trans
    (shift_eq_iff_min (q := q) op _)
  refine (forall₂_congr fun i _ => hlane i).trans ?_
  constructor
  · intro h
    by_cases heq : p % 2 ^ (width * 8) = q
    · exact .inl heq
    · exact .inr fun i hi => (h i hi).resolve_left heq
  · rintro (heq | hout) i hi
    · exact .inl heq
    · exact .inr (hout i hi)

end VexShift

end X86
