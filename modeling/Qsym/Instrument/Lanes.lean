import Qsym.Bits.Lanes
import Qsym.Instrument.Fetch
import Qsym.Instrument.Vector

/-!
# Qsym.Instrument.Lanes

The results of the vector instructions **by value**. The loops push their lanes one by one, and
the concatenation of the lanes expresses the vector of their values (`lanes_expresses`).
-/

namespace Qsym

open Procedure Bits
open SymbolicExprBuilder (chain)

variable {σ : Session} {n m w k : Nat} {e : Expr} {es : List Expr} {u : Input → BitVec m}
variable {f : Nat → Input → BitVec w}

/-- The expressions are those of the lanes at the positions. -/
abbrev Lanes (w : Nat) (f : Nat → Input → BitVec w) : List Nat → List Expr → Prop :=
  List.Forall₂ fun i e => Expresses w (f i) e

/-! ### Putting lanes together -/

theorem createConcatList_lanes (he : Expresses m u e) (hes : Lanes w f (List.range k).reverse es)
    (hn : n = m + k * w) : Builds σ exactly (SymbolicExprBuilder.createConcatList chain e es)
      (Expresses n fun ρ => BitVec.ofNat n ((u ρ).toNat * 2 ^ (k * w) + lanesNat (f · ρ) k)) := by
  induction k generalizing m u e es with
  | zero =>
      cases hes
      refine Total.ret ((he.setWidth (by rw [hn, Nat.zero_mul, Nat.add_zero])).congr fun ρ => ?_)
      apply BitVec.eq_of_toNat_eq
      simp [lanesNat]
  | succ k ih =>
      rw [List.range_succ, List.reverse_append] at hes
      obtain ⟨e', es', he', hes', rfl⟩ : ∃ e' es', Expresses w (f k) e' ∧
          Lanes w f (List.range k).reverse es' ∧ es = e' :: es' := by
        cases hes with
        | cons he' hes' => exact ⟨_, _, he', hes', rfl⟩
      refine Total.bind (he.concat_builds he') fun x hx => ?_
      refine (ih hx hes' (by rw [hn, Nat.succ_mul]; omega)).mono fun y hy => hy.congr fun ρ => ?_
      rw [BitVec.toNat_append, ← Nat.shiftLeft_add_eq_or_of_lt (f k ρ).isLt, Nat.shiftLeft_eq,
        Nat.mul_comm _ (2 ^ w)]
      exact congrArg (BitVec.ofNat n) (lanesNat_append (f · ρ) (u ρ).toNat)

theorem createConcatAll_lanes (hk : 0 < k) (hes : Lanes w f (List.range k).reverse es)
    (hn : k * w = n) : Builds σ exactly (chain.createConcatAll es)
      (Expresses n fun ρ => ofLanes n (f · ρ)) := by
  obtain ⟨k, rfl⟩ : ∃ j, k = j + 1 := ⟨k - 1, by omega⟩
  rw [List.range_succ, List.reverse_append] at hes
  obtain ⟨e, es', he, hes', rfl⟩ : ∃ e es', Expresses w (f k) e ∧
      Lanes w f (List.range k).reverse es' ∧ es = e :: es' := by
    cases hes with
    | cons he hes' => exact ⟨_, _, he, hes', rfl⟩
  have hn' : n = w + k * w := by
    rw [← hn, Nat.succ_mul]
    omega
  refine Total.mono (createConcatList_lanes he hes' hn') fun x hx => hx.congr fun ρ => ?_
  rw [ofLanes, ← hn, Nat.mul_div_cancel _ he.isBV.pos, lanesNat, Nat.mul_comm (f k ρ).toNat]

/-- The expressions are those of neighbouring parts of `z`, the highest first, down to bit 0. -/
inductive Tiles (z : Input → BitVec n) : Nat → List Expr → Prop
  | nil : Tiles z 0 []
  | cons {i w : Nat} {e : Expr} {es : List Expr} (hes : Tiles z i es)
      (he : Expresses w (fun ρ => (z ρ).extractLsb' i w) e) : Tiles z (i + w) (e :: es)

theorem createConcatList_tiles {z : Input → BitVec n} {i : Nat}
    (he : Expresses m (fun ρ => (z ρ).extractLsb' i m) e) (hes : Tiles z i es) :
    Builds σ exactly (SymbolicExprBuilder.createConcatList chain e es)
      (Expresses (i + m) fun ρ => (z ρ).extractLsb' 0 (i + m)) := by
  induction hes generalizing e m with
  | nil => exact Total.ret ((Nat.zero_add m).symm ▸ he)
  | cons hes he' ih =>
      rename_i i w e' es
      refine Total.bind (he.concat_builds he') fun x hx => ?_
      have hx' := hx.congr fun ρ => extract_append (z ρ) i m w
      refine (ih hx').mono fun y hy => ?_
      have hadd : i + (m + w) = i + w + m := by omega
      exact hadd ▸ hy

theorem createConcatAll_tiles {z : Input → BitVec n} {i : Nat} (hn : 0 < n) (hi : i = n)
    (hes : Tiles z i es) : Builds σ exactly (chain.createConcatAll es) (Expresses n z) := by
  cases hes with
  | nil => omega
  | cons hes he =>
      refine Total.mono (createConcatList_tiles he hes) fun y hy => ?_
      subst hi
      exact hy.congr fun ρ => by simp

/-- Every lane is pushed in front of those below. -/
theorem pushLanes_lanes {lane : Nat → Build Expr} {g : Nat → Nat} {is js : List Nat}
    (h : ∀ i ∈ is, Builds σ exactly (lane (g i)) (Expresses w (f i)))
    (hes : Lanes w f js es) : Builds σ exactly
      (ExprBuilder.pushLanes lane (is.map g) es) (Lanes w f (is.reverse ++ js)) := by
  induction is generalizing es js with
  | nil => exact Total.ret hes
  | cons i is ih =>
      refine Total.bind (h i List.mem_cons_self) fun e he => ?_
      rw [List.reverse_cons, List.append_assoc]
      exact ih (fun j hj => h j (List.mem_cons_of_mem i hj)) (.cons he hes)

theorem lanes_expresses {size step : Nat} {lane : Nat → Build Expr} (hk : 0 < k)
    (hsteps : (size + step - 1) / step = k) (hn : k * w = n)
    (h : ∀ i < k, Builds σ exactly (lane (i * step)) (Expresses w (f i))) :
    Builds σ exactly (chain.lanes size step lane) (Expresses n fun ρ => ofLanes n (f · ρ)) := by
  unfold ExprBuilder.lanes ExprBuilder.steps
  rw [hsteps]
  have hnil : Lanes w f [] [] := .nil
  refine Total.bind (pushLanes_lanes (g := (· * step)) (fun i hi => h i (List.mem_range.1 hi)) hnil)
    fun es hes => ?_
  rw [List.append_nil] at hes
  exact createConcatAll_lanes hk hes hn

/-! ### Lane by lane -/

section Pairs

variable {a b : Input → BitVec n} {dst src : Expr} (hw : 0 < w) (hn : w ∣ n) (hpos : 0 < n)
  (ha : Expresses n a dst) (hb : Expresses n b src)

theorem steps_of_dvd {size step : Nat} (hs : 0 < step) (hd : step ∣ size) :
    (size + step - 1) / step = size / step := by
  obtain ⟨j, rfl⟩ := hd
  rw [Nat.mul_div_cancel_left j hs, Nat.add_sub_assoc (by omega), Nat.mul_add_div hs,
    Nat.div_eq_of_lt (by omega), Nat.add_zero]

include hw ha in
theorem lane_expresses {i : Nat} (hi : i < n / w) :
    Builds σ exactly (chain.createExtract dst (i * w) w) (Expresses w fun ρ => lane w (a ρ) i) :=
  ha.extract_builds hw (lt_of_lane hw hi)

include hw hn hpos ha hb in
theorem pairLanes_expresses {g : BitVec w → BitVec w → BitVec w} {op : Expr → Expr → Build Expr}
    (h : ∀ (x y : Input → BitVec w) l r, Expresses w x l → Expresses w y r →
      Builds σ exactly (op l r) (Expresses w fun ρ => g (x ρ) (y ρ))) :
    Builds σ exactly (chain.pairLanes n w dst src op)
      (Expresses n fun ρ => ofLanes n fun i => g (lane w (a ρ) i) (lane w (b ρ) i)) := by
  refine lanes_expresses (f := fun i ρ => g (lane w (a ρ) i) (lane w (b ρ) i))
    (Nat.div_pos (Nat.le_of_dvd hpos hn) hw)
    (steps_of_dvd hw hn) (Nat.div_mul_cancel hn) fun i hi => ?_
  refine Total.bind (lane_expresses hw ha hi) fun l hl => ?_
  exact Total.bind (lane_expresses hw hb hi) fun r hr => h _ _ l r hl hr

end Pairs

section Families

variable {a b : Input → BitVec n} {dst src : Expr} {width : Nat} (hw : 0 < width)
  (hn : width * 8 ∣ n) (hpos : 0 < n) (ha : Expresses n a dst) (hb : Expresses n b src)

include hw hn hpos ha hb in
theorem parithExpr_expresses (kind : BinaryKind) (hs : kind ≠ .sdiv) (hk : kind.isLogical = false) :
    Builds σ exactly (chain.parithExpr n dst src kind width)
      (Expresses n fun ρ => ofLanes n fun i =>
        kind.apply (lane (width * 8) (a ρ) i) (lane (width * 8) (b ρ) i)) :=
  pairLanes_expresses (g := kind.apply) (by omega) hn hpos ha hb fun _ _ _ _ hl hr =>
    hl.binary_builds hs hk hr

include hw hn hpos ha hb in
theorem pmulExpr_expresses : Builds σ exactly (chain.pmulExpr n dst src width)
    (Expresses n fun ρ => ofLanes n fun i => lane (width * 8) (a ρ) i * lane (width * 8) (b ρ) i) :=
  parithExpr_expresses hw hn hpos ha hb .mul nofun rfl

include hw hn hpos ha hb in
theorem pcmpExpr_expresses (kind : CompareKind) :
    Builds σ exactly (chain.pcmpExpr n dst src kind width)
      (Expresses n fun ρ => ofLanes n fun i =>
        if kind.holds (lane (width * 8) (a ρ) i) (lane (width * 8) (b ρ) i)
          then BitVec.allOnes (width * 8) else 0) := by
  refine Total.bind (Expresses.constant_builds (BitVec.allOnes (width * 8)) (by omega)) fun y hy =>
    ?_
  refine Total.bind (Expresses.createConstant_builds 0 (by omega)) fun z hz => ?_
  refine pairLanes_expresses (g := fun x y => if kind.holds x y
    then BitVec.allOnes (width * 8) else 0)
    (by omega) hn hpos ha hb fun _ _ _ _ hl hr => ?_
  exact Total.bind (hl.compare_builds kind hr) fun c hc => hc.ite_builds hy hz

include hw hn hpos ha hb in
theorem pcmpxchgExpr_expresses (kind : CompareKind) :
    Builds σ exactly (chain.pcmpxchgExpr n dst src kind width)
      (Expresses n fun ρ => ofLanes n fun i =>
        if kind.holds (lane (width * 8) (a ρ) i) (lane (width * 8) (b ρ) i)
          then lane (width * 8) (a ρ) i else lane (width * 8) (b ρ) i) := by
  refine pairLanes_expresses (g := fun x y => if kind.holds x y then x else y)
    (by omega) hn hpos ha hb fun _ _ _ _ hl hr => ?_
  exact Total.bind (hl.compare_builds kind hr) fun c hc => hc.ite_builds hl hr

end Families

/-! ### Words -/

section Words

variable {size : Nat} {a b : Input → BitVec (size * 8)} {dst src : Expr} (hsize : 4 ∣ size)
  (hpos : 0 < size)
  (ha : Expresses (size * 8) a dst) (hb : Expresses (size * 8) b src)

/-- How `doPmulhw` and its siblings extend. -/
def signExt (sign : Bool) : ExtKind :=
  if sign then .sext else .zext

theorem extendToDouble_lane {x : Input → BitVec w} (he : Expresses w x e) (sign : Bool)
    (hm : w * 2 = m) : Builds σ exactly (chain.extendToDouble e sign)
      (Expresses m fun ρ => (signExt sign).apply m (x ρ)) := by
  subst hm
  unfold ExprBuilder.extendToDouble
  rw [he.bits]
  cases sign with
  | true => exact he.ext_builds .sext (by omega)
  | false => exact he.ext_builds .zext (by omega)

include ha in
/-- The word at byte `i * 2`. -/
theorem word_expresses {i : Nat} (hi : i * 2 + 2 ≤ size) :
    Builds σ exactly (chain.createExtract dst (i * 2 * 8) (2 * 8))
      (Expresses 16 fun ρ => lane 16 (a ρ) i) := by
  have hpos : i * 2 * 8 = i * 16 := by omega
  rw [hpos]
  exact ha.extract_builds (by omega) (by omega)

include hsize hpos ha hb in
theorem pmulhwExpr_expresses (sign : Bool) : Builds σ exactly (chain.pmulhwExpr size dst src sign)
    (Expresses (size * 8) fun ρ => ofLanes (size * 8) fun i =>
      ((signExt sign).apply 32 (lane 16 (a ρ) i) * (signExt sign).apply 32
        (lane 16 (b ρ) i)).extractLsb' 16 16) := by
  refine lanes_expresses (k := size / 2) (w := 16) (by omega) (by omega) (by omega) fun i hi => ?_
  refine Total.bind (word_expresses ha (by omega)) fun l hl => ?_
  refine Total.bind (word_expresses hb (by omega)) fun r hr => ?_
  refine Total.bind (extendToDouble_lane hl sign (m := 32) rfl) fun l' hl' => ?_
  refine Total.bind (extendToDouble_lane hr sign (m := 32) rfl) fun r' hr' => ?_
  refine Total.bind (hl'.binary_builds (k := .mul) nofun rfl hr') fun x hx => ?_
  exact hx.extract_builds (by omega) (by omega)

/-- The product of the words at `i`. -/
def wordProductBv (x y : BitVec n) (i : Nat) : BitVec 32 :=
  (lane 16 x i).setWidth 32 * (lane 16 y i).setWidth 32

include ha hb in
theorem wordProducts_expresses {js : List Nat} (hjs : ∀ j ∈ js, j * 2 + 2 ≤ size) :
    Builds σ exactly (chain.wordProducts dst src (js.map (· * 2)))
      (Lanes 32 (fun j ρ => wordProductBv (a ρ) (b ρ) j) js) := by
  induction js with
  | nil => exact Total.ret .nil
  | cons j js ih =>
      have hj := hjs j List.mem_cons_self
      have hproduct : Builds σ exactly (chain.wordProduct dst src (j * 2))
          (Expresses 32 fun ρ => wordProductBv (a ρ) (b ρ) j) := by
        refine Total.bind (word_expresses ha hj) fun l hl => ?_
        refine Total.bind (word_expresses hb hj) fun r hr => ?_
        refine Total.bind (hl.ext_builds .zext (n := 32) (by omega)) fun l' hl' => ?_
        refine Total.bind (hr.ext_builds .zext (n := 32) (by omega)) fun r' hr' => ?_
        exact hl'.binary_builds (k := .mul) nofun rfl hr'
      refine Total.bind hproduct fun x hx => ?_
      refine Total.bind (ih fun j' hj' => hjs j' (List.mem_cons_of_mem j hj')) fun xs hxs => ?_
      exact Total.ret (.cons hx hxs)

/-- Neighbours are added and pushed in front of what is there. -/
theorem addPairs_lanes {f : Nat → Input → BitVec w} {c : Nat} {muls : List Expr} {js : List Nat}
    (hmuls : Lanes w f (List.range' (2 * c) (2 * k)) muls)
    (hes : Lanes w (fun i ρ => f (2 * i) ρ + f (2 * i + 1) ρ) js es) :
    Builds σ exactly (chain.addPairs muls es)
      (Lanes w (fun i ρ => f (2 * i) ρ + f (2 * i + 1) ρ) ((List.range' c k).reverse ++ js)) := by
  induction k generalizing c muls es js with
  | zero =>
      cases hmuls
      exact Total.ret hes
  | succ k ih =>
      have hrange : List.range' (2 * c) (2 * (k + 1)) =
          2 * c :: (2 * c + 1) :: List.range' (2 * (c + 1)) (2 * k) := by
        rw [show 2 * (k + 1) = 2 * k + 1 + 1 by omega, List.range'_succ, List.range'_succ]
        rfl
      rw [hrange] at hmuls
      cases hmuls with
      | cons h₁ hmuls =>
          cases hmuls with
          | cons h₂ hmuls =>
              refine Total.bind (h₁.binary_builds (k := .add) nofun rfl h₂) fun x hx => ?_
              rw [List.range'_succ, List.reverse_cons, List.append_assoc]
              exact ih hmuls (.cons hx hes)

include hsize hpos ha hb in
theorem pmaddwdExpr_expresses : Builds σ exactly (chain.pmaddwdExpr size dst src)
    (Expresses (size * 8) fun ρ => ofLanes (size * 8) fun i =>
      wordProductBv (a ρ) (b ρ) (2 * i) + wordProductBv (a ρ) (b ρ) (2 * i + 1)) := by
  obtain ⟨k, rfl⟩ := hsize
  have hsteps : ExprBuilder.steps (4 * k) 2 = (List.range' (2 * 0) (2 * k)).map (· * 2) := by
    rw [ExprBuilder.steps, Nat.mul_zero, ← List.range_eq_range']
    congr 2
    omega
  unfold ExprBuilder.pmaddwdExpr
  rw [hsteps]
  refine Total.bind (wordProducts_expresses ha hb fun j hj => ?_) fun muls hmuls => ?_
  · have hlt := (List.mem_range'_1.1 hj).2
    omega
  · refine Total.bind (addPairs_lanes hmuls .nil) fun es hes => ?_
    rw [List.append_nil, ← List.range_eq_range'] at hes
    exact createConcatAll_lanes (by omega) hes (by omega)

end Words

/-! ### Saturation -/

/-- The value that `saturate` cuts to `w` bits: below and above the bounds it is one of the ends. -/
def saturated (lt gt : CompareKind) (lo hi : BitVec m) (loDst hiDst : BitVec w) (x : BitVec m) :
    BitVec w :=
  if lt.holds x lo then loDst else if gt.holds x hi then hiDst else x.extractLsb' 0 w

/-- `saturateIntToInt` and `saturateIntToUint` -/
def saturatedTo (sign : Bool) (w : Nat) (x : BitVec m) : BitVec w :=
  if sign then saturated .slt .sgt ((BitVec.intMin w).signExtend m) ((BitVec.intMax w).signExtend m)
    (BitVec.intMin w) (BitVec.intMax w) x
  else saturated .ult .ugt 0 ((BitVec.allOnes w).setWidth m) 0 (BitVec.allOnes w) x

theorem saturate_expresses (he : Expresses m u e) (hw : 0 < w) (hm : w ≤ m) (lt gt : CompareKind)
    (lo hi : BitVec m) (loDst hiDst : BitVec w) :
    Builds σ exactly (chain.saturate e m w lo hi loDst hiDst lt gt)
      (Expresses w fun ρ => saturated lt gt lo hi loDst hiDst (u ρ)) := by
  have hpos : 0 < m := by omega
  refine Total.bind (Expresses.constant_builds hi hpos) fun eHi hHi => ?_
  refine Total.bind (Expresses.constant_builds lo hpos) fun eLo hLo => ?_
  refine Total.bind (Expresses.constant_builds hiDst hw) fun eHiDst hHiDst => ?_
  refine Total.bind (Expresses.constant_builds loDst hw) fun eLoDst hLoDst => ?_
  refine Total.bind (he.compare_builds lt hLo) fun isLess hLess => ?_
  refine Total.bind (he.compare_builds gt hHi) fun isGreater hGreater => ?_
  refine Total.bind (he.extract_builds (i := 0) hw (by omega)) fun low hlow => ?_
  exact Total.bind (hGreater.ite_builds hHiDst hlow) fun res hres => hLess.ite_builds hLoDst hres

section Pack

variable {a b : Input → BitVec n} {dst src : Expr} {width : Nat} (hw : 0 < width)
  (hn : width * 8 ∣ n) (hpos : 0 < n) (ha : Expresses n a dst) (hb : Expresses n b src)

include hw hn hpos ha hb in
theorem packExpr_expresses (sign : Bool) : Builds σ exactly (chain.packExpr n dst src width sign)
    (Expresses n fun ρ => ofLanes n fun i =>
      saturatedTo sign (width * 8) (lane (width * 8 * 2) (b ρ ++ a ρ) i)) := by
  have hw8 : 0 < width * 8 := by omega
  refine Total.bind (hb.concat_builds ha) fun x hx => ?_
  refine lanes_expresses (w := width * 8) (Nat.div_pos (Nat.le_of_dvd hpos hn) hw8)
    (steps_of_dvd hw8 hn) (Nat.div_mul_cancel hn) fun i hi => ?_
  have hlane := lt_of_lane hw8 hi
  have hi2 : i * (width * 8) * 2 = i * (width * 8 * 2) := Nat.mul_assoc _ _ _
  rw [hi2]
  refine Total.bind (hx.extract_builds (w := width * 8 * 2) (by omega) (by omega)) fun y hy => ?_
  cases sign with
  | true =>
      simp only [if_true, ExprBuilder.saturateIntToInt]
      rw [if_pos ⟨by omega, hy.bits⟩]
      exact saturate_expresses hy hw8 (by omega) _ _ _ _ _ _
  | false =>
      simp only [Bool.false_eq_true, if_false, ExprBuilder.saturateIntToUint]
      rw [if_pos ⟨by omega, hy.bits⟩]
      exact saturate_expresses hy hw8 (by omega) _ _ _ _ _ _

end Pack

/-! ### Bytes -/

section Bytes

variable {size : Nat} {a b : Input → BitVec (size * 8)} {dst src : Expr}

/-- The lane of `doPshift`. -/
theorem pshiftExpr_expresses {kind : BinaryKind} (hs : kind ≠ .sdiv) (hk : kind.isLogical = false)
    {width : Nat} (hw : 0 < width) (hn : width ∣ size) (hpos : 0 < size) (imm : Nat)
    (ha : Expresses (size * 8) a dst) :
    Builds σ exactly (chain.pshiftExpr size kind dst imm width)
      (Expresses (size * 8) fun ρ => ofLanes (size * 8) fun i =>
        kind.apply (lane (width * 8) (a ρ) i)
          (BitVec.ofNat (width * 8) (if width = 16 then imm * 8 % 2 ^ 64 else imm))) := by
  refine Total.bind (Expresses.createConstant_builds _ (by omega)) fun count hcount => ?_
  refine lanes_expresses (w := width * 8) (Nat.div_pos (Nat.le_of_dvd hpos hn) hw)
    (steps_of_dvd hw hn) (by rw [← Nat.mul_assoc, Nat.div_mul_cancel hn]) fun i hi => ?_
  have hi8 : i * width * 8 = i * (width * 8) := Nat.mul_assoc _ _ _
  have hlane := lt_of_lane hw hi
  rw [hi8]
  refine Total.bind (ha.extract_builds (w := width * 8) (by omega) (by omega)) fun x hx => ?_
  exact hx.binary_builds hs hk hcount

/-- What `doPunpckh` and `doPunpckl` take for lane `i`. -/
def interleaved (w off : Nat) (x y : BitVec n) (i : Nat) : BitVec w :=
  (if i % 2 = 0 then x else y).extractLsb' (i / 2 * w + off) w

theorem interleaved_even (w off : Nat) (x y : BitVec n) (c : Nat) :
    interleaved w off x y (2 * c) = x.extractLsb' (c * w + off) w := by
  unfold interleaved
  rw [if_pos (by omega), show 2 * c / 2 = c by omega]

theorem interleaved_odd (w off : Nat) (x y : BitVec n) (c : Nat) :
    interleaved w off x y (2 * c + 1) = y.extractLsb' (c * w + off) w := by
  unfold interleaved
  rw [if_neg (by omega), show (2 * c + 1) / 2 = c by omega]

/-- A lane of each operand is pushed. -/
theorem interleave_lanes {width off c : Nat} {js : List Nat} (hw : 0 < width)
    (hk : ∀ i < c + k, i * width + off + width ≤ size) (ha : Expresses (size * 8) a dst)
    (hb : Expresses (size * 8) b src)
    (hes : Lanes (width * 8) (fun i ρ => interleaved (width * 8) (off * 8) (a ρ) (b ρ) i) js es) :
    Builds σ exactly
      (chain.interleave dst src width off ((List.range' c k).map (· * (width * 2))) es)
      (Lanes (width * 8) (fun i ρ => interleaved (width * 8) (off * 8) (a ρ) (b ρ) i)
        ((List.range' (2 * c) (2 * k)).reverse ++ js)) := by
  induction k generalizing c es js with
  | zero => exact Total.ret hes
  | succ k ih =>
      have hoff : (c * (width * 2) / 2 + off) * 8 = c * (width * 8) + off * 8 := by
        rw [← Nat.mul_assoc, Nat.mul_div_cancel _ Nat.two_pos]
        ring
      have hfits := hk c (by omega)
      have hfits8 : c * (width * 8) + off * 8 + width * 8 ≤ size * 8 := by
        rw [← Nat.mul_assoc]
        omega
      have hrange : (List.range' (2 * c) (2 * (k + 1))).reverse =
          (List.range' (2 * (c + 1)) (2 * k)).reverse ++ [2 * c + 1, 2 * c] := by
        rw [show 2 * (k + 1) = 2 * k + 1 + 1 by omega, List.range'_succ, List.range'_succ,
          List.reverse_cons, List.reverse_cons, List.append_assoc]
        rfl
      rw [List.range'_succ, List.map_cons]
      unfold ExprBuilder.interleave
      rw [hoff]
      refine Total.bind (ha.extract_builds (by omega) hfits8) fun d hd => ?_
      refine Total.bind (hb.extract_builds (by omega) hfits8) fun s hs => ?_
      rw [hrange, List.append_assoc]
      refine ih (fun i hi => hk i (by omega)) (.cons ?_ (.cons ?_ hes))
      · exact hs.congr fun ρ => (interleaved_odd _ _ _ _ _).symm
      · exact hd.congr fun ρ => (interleaved_even _ _ _ _ _).symm

theorem punpckExpr_expresses {width off : Nat} (hw : 0 < width) (hn : width * 2 ∣ size)
    (hpos : 0 < size)
    (hoff : ∀ i < size / (width * 2), i * width + off + width ≤ size)
    (ha : Expresses (size * 8) a dst)
    (hb : Expresses (size * 8) b src) :
    Builds σ exactly (chain.punpckExpr dst src width size off)
      (Expresses (size * 8) fun ρ => ofLanes (size * 8)
        (interleaved (width * 8) (off * 8) (a ρ) (b ρ))) := by
  have hw2 : 0 < width * 2 := by omega
  unfold ExprBuilder.punpckExpr ExprBuilder.steps
  rw [steps_of_dvd hw2 hn, List.range_eq_range']
  have hnil : Lanes (width * 8)
      (fun i ρ => interleaved (width * 8) (off * 8) (a ρ) (b ρ) i) [] [] := .nil
  refine Total.bind (interleave_lanes (c := 0) hw (by simpa using hoff) ha hb hnil) fun es hes => ?_
  rw [List.append_nil, Nat.mul_zero, ← List.range_eq_range'] at hes
  have hdiv := Nat.div_pos (Nat.le_of_dvd hpos hn) hw2
  refine createConcatAll_lanes (by omega) hes ?_
  obtain ⟨j, rfl⟩ := hn
  rw [Nat.mul_div_cancel_left j hw2]
  ring

/-- What `doPshufb` takes for byte `i`. -/
def shuffled (x y : BitVec n) (i : Nat) : BitVec 8 :=
  if (lane 8 y i).msb then 0
  else lane 8 x ((lane 8 y i &&& 15).toNat + if 16 ≤ i then 16 else 0)

theorem byte_at_shift (x : BitVec n) {y : BitVec n} {j : Nat} (hy : y.toNat = j * 8) :
    (x >>> y).extractLsb' 0 8 = lane 8 x j := by
  apply BitVec.eq_of_getLsbD_eq
  intro k hk
  simp [lane, BitVec.ushiftRight_eq', hy, Nat.add_comm]

theorem toNat_index (hn : 8 ≤ n) (y : BitVec 8) :
    ((((y &&& 15).setWidth n) <<< BitVec.ofNat n 3) : BitVec n).toNat = (y &&& 15).toNat * 8 := by
  have hand : (y &&& 15).toNat ≤ 15 := by
    rw [BitVec.toNat_and]
    exact Nat.and_le_right
  have hpow : 2 ^ 8 ≤ 2 ^ n := Nat.pow_le_pow_right Nat.two_pos hn
  rw [BitVec.shiftLeft_eq', BitVec.toNat_shiftLeft, BitVec.toNat_setWidth, BitVec.toNat_ofNat,
    Nat.mod_eq_of_lt (show 3 < 2 ^ n by omega),
      Nat.mod_eq_of_lt (show (y &&& 15).toNat < 2 ^ n by omega),
    Nat.shiftLeft_eq, Nat.mod_eq_of_lt (by omega)]

theorem extract_msb (y : BitVec n) (i : Nat) :
    (y.extractLsb' (i * 8 + 7) 1 == 1) = (lane 8 y i).msb := by
  rw [extractLsb'_beq_one, BitVec.msb_eq_getLsbD_last]
  simp [lane]

theorem pshufbExpr_expresses (hsize : size = 16 ∨ size = 32) (ha : Expresses (size * 8) a dst)
    (hb : Expresses (size * 8) b src) : Builds σ exactly (chain.pshufbExpr size dst src)
      (Expresses (size * 8) fun ρ => ofLanes (size * 8) (shuffled (a ρ) (b ρ))) := by
  have hmask : (if size = 8 then 7 else 15) = 15 := if_neg (by omega)
  have hpow : 2 ^ 8 ≤ 2 ^ (size * 8) := Nat.pow_le_pow_right Nat.two_pos (by omega)
  unfold ExprBuilder.pshufbExpr
  rw [hmask]
  refine Total.bind (Expresses.createConstant_builds 1 (by omega)) fun oneBit hone => ?_
  refine Total.bind (Expresses.createConstant_builds 0 (by omega)) fun zeroByte hzero => ?_
  refine Total.bind (Expresses.createConstant_builds 3 (by omega)) fun three hthree => ?_
  refine Total.bind (Expresses.createConstant_builds 15 (by omega)) fun mask hmask => ?_
  refine lanes_expresses (w := 8) (k := size) (by omega) (by omega) rfl fun i hi => ?_
  rw [Nat.mul_one]
  unfold ExprBuilder.pshufbLane
  refine Total.bind (hb.extract_builds (i := i * 8 + 7) (w := 1) (by omega) (by omega))
    fun msb hmsb => ?_
  refine Total.bind (hb.extract_builds (i := i * 8) (w := 8) (by omega) (by omega)) fun x hx => ?_
  refine Total.bind (hx.binary_builds (k := .and) nofun rfl hmask) fun x hx => ?_
  refine Total.bind (hx.ext_builds .zext (n := size * 8) (by omega)) fun x hx => ?_
  refine Total.bind (hx.binary_builds (k := .shl) nofun rfl hthree) fun index hindex => ?_
  have hrest {x : Expr} {v : Input → BitVec (size * 8)} (hv : Expresses (size * 8) v x)
      (hval : ∀ ρ, (v ρ).toNat = ((lane 8 (b ρ) i &&& 15).toNat + if 16 ≤ i then 16 else 0) * 8) :
      Builds σ exactly (do
        let e ← chain.createLShr dst x
        let e ← chain.createExtract e 0 8
        let isSet ← chain.createEqual msb oneBit
        chain.createIte isSet zeroByte e) (Expresses 8 fun ρ => shuffled (a ρ) (b ρ) i) := by
    refine Total.bind (ha.binary_builds (k := .lshr) nofun rfl hv) fun y hy => ?_
    refine Total.bind (hy.extract_builds (i := 0) (w := 8) (by omega) (by omega)) fun z hz => ?_
    refine Total.bind (hmsb.compare_builds .equal hone) fun isSet hset => ?_
    refine Total.mono (hset.ite_builds hzero hz) fun res hres => hres.congr fun ρ => ?_
    change (if ((b ρ).extractLsb' (i * 8 + 7) 1 == 1) = true then (0 : BitVec 8) else
      ((a ρ) >>> (v ρ)).extractLsb' 0 8) = _
    rw [extract_msb, byte_at_shift _ (hval ρ)]
    rfl
  have hindex8 (ρ : Input) : (((lane 8 (b ρ) i &&& 15).setWidth (size * 8) <<<
      BitVec.ofNat (size * 8) 3) : BitVec (size * 8)).toNat = (lane 8 (b ρ) i &&& 15).toNat * 8 :=
    toNat_index (by omega) _
  by_cases hi16 : 16 ≤ i
  · rw [if_pos hi16]
    refine Total.bind (Expresses.createConstant_builds 128 (by omega)) fun high hhigh => ?_
    refine Total.bind (hindex.binary_builds (k := .add) nofun rfl hhigh) fun x hx =>
      hrest hx fun ρ => ?_
    have hand : (lane 8 (b ρ) i &&& 15).toNat ≤ 15 := by
      rw [BitVec.toNat_and]
      exact Nat.and_le_right
    refine (BitVec.toNat_add _ _).trans ?_
    rw [if_pos hi16, BitVec.toNat_ofNat, Nat.mod_eq_of_lt (show 128 < 2 ^ (size * 8) by omega)]
    refine (congrArg (fun x => (x + 128) % 2 ^ (size * 8)) (hindex8 ρ)).trans ?_
    rw [Nat.mod_eq_of_lt (by omega)]
    omega
  · rw [if_neg hi16]
    exact hrest hindex fun ρ => by rw [if_neg hi16]; exact hindex8 ρ

end Bytes

end Qsym
