import Mathlib.Order.Basic
import Qsym.Bits.Arc

/-!
# Qsym.Range.RangeSet

`RangeSet`, the sets of numbers that comparisons leave: closed ranges in ascending order, apart
from each other. Intersecting goes through them once (`intersectInRange`). A range that wraps
around is intersected as the two ranges that it consists of, with one iterator for both, so the
second loop goes on where the first one stopped.
-/

namespace Qsym

/-! ### Numbers -/

/-- `llvm::APSInt`: a number of a width that is compared unsigned or signed. -/
structure APSInt (isUnsigned : Bool) (width : Nat) where
  toBitVec : BitVec width
  deriving DecidableEq, Repr

namespace APSInt

variable {u : Bool} {n : Nat}

instance : LinearOrder (APSInt u n) :=
  LinearOrder.lift' (fun v => Bits.rank u v.toBitVec) fun v w h => by
    have hbits : v.toBitVec = w.toBitVec := Bits.rank_inj.1 h
    cases v
    cases w
    exact congrArg _ hbits

theorem le_iff {v w : APSInt u n} : v ≤ w ↔ Bits.rank u v.toBitVec ≤ Bits.rank u w.toBitVec :=
  Iff.rfl

/-- `getMinValue` -/
def minValue : APSInt u n :=
  ⟨if u then 0 else BitVec.intMin n⟩

/-- `getMaxValue` -/
def maxValue : APSInt u n :=
  ⟨if u then BitVec.allOnes n else BitVec.intMax n⟩

instance : Sub (APSInt u n) where
  sub v w := ⟨v.toBitVec - w.toBitVec⟩

/-- `--` -/
def dec (v : APSInt u n) : APSInt u n :=
  ⟨v.toBitVec - 1⟩

/-- `++` -/
def inc (v : APSInt u n) : APSInt u n :=
  ⟨v.toBitVec + 1⟩

theorem toBitVec_minValue : (minValue : APSInt u n).toBitVec = Bits.least u n := rfl

theorem toBitVec_maxValue : (maxValue : APSInt u n).toBitVec = Bits.greatest u n := by
  cases u with
  | true =>
      show BitVec.allOnes n = 0 - 1
      rw [zero_sub]
      exact BitVec.neg_one_eq_allOnes.symm
  | false =>
      rfl

theorem minValue_le (v : APSInt u n) : minValue ≤ v := by
  rw [le_iff, toBitVec_minValue, Bits.rank_least]
  exact Nat.zero_le _

theorem le_maxValue (v : APSInt u n) : v ≤ maxValue := by
  have hlt := Bits.rank_lt u v.toBitVec
  rw [le_iff, toBitVec_maxValue, Bits.rank_greatest]
  omega

end APSInt

/-! ### Ranges -/

/-- `Range`: a closed range. -/
structure Range (α : Type) [LE α] where
  first : α
  second : α
  le : first ≤ second
  deriving DecidableEq, Repr

namespace Range

variable {α : Type} [LinearOrder α]

/-- `Range::includes` -/
def includes (r : Range α) (v : α) : Prop :=
  r.first ≤ v ∧ v ≤ r.second

instance (r : Range α) (v : α) : Decidable (r.includes v) :=
  inferInstanceAs (Decidable (_ ∧ _))

/-- The order of a `std::set<Range>`, that of pairs. -/
def lt (r s : Range α) : Prop :=
  r.first < s.first ∨ r.first = s.first ∧ r.second < s.second

instance (r s : Range α) : Decidable (r.lt s) :=
  inferInstanceAs (Decidable (_ ∨ _))

/-- `r` ends before `s` begins. -/
def Before (r s : Range α) : Prop :=
  r.second < s.first

end Range

/-- `PrimRangeSet`, a `std::set<Range>`: its elements in order. -/
abbrev PrimRangeSet (α : Type) [LE α] := List (Range α)

namespace PrimRangeSet

variable {α : Type} [LinearOrder α]

/-- `std::set::insert` -/
def insert : PrimRangeSet α → Range α → PrimRangeSet α
  | [], r => [r]
  | s :: rs, r => if r.lt s then r :: s :: rs else if s.lt r then s :: insert rs r else s :: rs

/-- The ranges are apart and ascend. -/
def Sorted (rs : PrimRangeSet α) : Prop :=
  rs.Pairwise Range.Before

/-- Some range includes `v`. -/
def Covers (rs : PrimRangeSet α) (v : α) : Prop :=
  ∃ r ∈ rs, r.includes v

/-- `RangeSet::intersectInRange`, from the iterator on: the new ranges, and where the iterator
stops. -/
def intersectInRange (lower upper : α) (h : lower ≤ upper) (new : PrimRangeSet α) :
    PrimRangeSet α → PrimRangeSet α × PrimRangeSet α
  | [] => (new, [])
  | i :: rest =>
      if i.second < lower then intersectInRange lower upper h new rest
      else if upper < i.first then (new, i :: rest)
      else if hl : i.includes lower then
        if i.includes upper then (insert new ⟨lower, upper, h⟩, i :: rest)
        else intersectInRange lower upper h (insert new ⟨lower, i.second, hl.2⟩) rest
      else if hu : i.includes upper then (insert new ⟨i.first, upper, hu.1⟩, i :: rest)
      else intersectInRange lower upper h (insert new i) rest

variable {rs new : PrimRangeSet α} {r : Range α} {v lower upper : α}

@[simp] theorem covers_nil (v : α) : ¬ Covers ([] : PrimRangeSet α) v := by
  simp [Covers]

@[simp] theorem covers_cons : Covers (r :: rs) v ↔ r.includes v ∨ Covers rs v := by
  simp [Covers]

theorem covers_append {rs' : PrimRangeSet α} : Covers (rs ++ rs') v ↔ Covers rs v ∨
    Covers rs' v := by
  simp [Covers, or_and_right, exists_or]

theorem sorted_cons : Sorted (r :: rs) ↔ (∀ s ∈ rs, r.Before s) ∧ Sorted rs :=
  List.pairwise_cons

/-- What comes after all ranges goes to the end. -/
theorem insert_eq_append (h : ∀ s ∈ rs, s.Before r) : insert rs r = rs ++ [r] := by
  induction rs with
  | nil => rfl
  | cons s rs ih =>
      obtain ⟨hs, hrs⟩ := List.forall_mem_cons.1 h
      have hlt : s.first < r.first := s.le.trans_lt hs
      have hnot : ¬ r.lt s := by
        rintro (h | ⟨h, -⟩)
        · exact lt_asymm h hlt
        · exact hlt.ne' h
      rw [insert, if_neg hnot, if_pos (.inl hlt), ih hrs, List.cons_append]

theorem not_covers_of_lt (h : ∀ s ∈ rs, v < s.first) : ¬ Covers rs v := by
  rintro ⟨s, hs, hle, -⟩
  exact absurd hle (h s hs).not_ge

/-- What one pass gives: the new ranges cover besides what they covered before what the old ones
have between the ends, and the iterator leaves out nothing that comes later. -/
structure Intersected (lower upper : α) (new rs : PrimRangeSet α)
    (result : PrimRangeSet α × PrimRangeSet α) : Prop where
  covers : ∀ v, Covers result.1 v ↔ Covers new v ∨ (lower ≤ v ∧ v ≤ upper) ∧ Covers rs v
  later : ∀ v, upper < v → (Covers result.2 v ↔ Covers rs v)
  sorted : Sorted result.1
  suffix : result.2 <:+ rs
  le_upper : ∀ r ∈ result.1, r ∈ new ∨ r.second ≤ upper

/-- The new ranges end before the pass begins, or before the old ones that are left. -/
def Passed (lower : α) (new rs : PrimRangeSet α) : Prop :=
  ∀ r ∈ new, r.second < lower ∨ ∀ s ∈ rs, r.Before s

section Pass

variable {i p : Range α} {rest : PrimRangeSet α} {result : PrimRangeSet α × PrimRangeSet α}

/-- `p` is the part of `i` between the ends. -/
structure Part (lower upper : α) (i p : Range α) : Prop where
  includes : ∀ v, p.includes v ↔ (lower ≤ v ∧ v ≤ upper) ∧ i.includes v

theorem Part.first (h : Part lower upper i p) : lower ≤ p.first ∧ i.first ≤ p.first := by
  obtain ⟨hbetween, hi⟩ := (h.includes p.first).1 ⟨le_rfl, p.le⟩
  exact ⟨hbetween.1, hi.1⟩

theorem Part.second (h : Part lower upper i p) : p.second ≤ upper ∧ p.second ≤ i.second := by
  obtain ⟨hbetween, hi⟩ := (h.includes p.second).1 ⟨p.le, le_rfl⟩
  exact ⟨hbetween.2, hi.2⟩

theorem Passed.tail (h : Passed lower new (i :: rest)) : Passed lower new rest :=
  fun r hr => (h r hr).imp id fun hall s hs => hall s (List.mem_cons_of_mem i hs)

/-- The part comes after all new ranges. -/
theorem Passed.before (h : Passed lower new (i :: rest)) (hp : Part lower upper i p) :
    ∀ r ∈ new, r.Before p := by
  intro r hr
  obtain ⟨hlower, hfirst⟩ := hp.first
  rcases h r hr with hlt | hall
  · exact lt_of_lt_of_le hlt hlower
  · exact lt_of_lt_of_le (hall i List.mem_cons_self) hfirst

theorem Passed.insert_eq (h : Passed lower new (i :: rest)) (hp : Part lower upper i p) :
    insert new p = new ++ [p] :=
  insert_eq_append (h.before hp)

theorem Passed.insert (h : Passed lower new (i :: rest)) (hp : Part lower upper i p)
    (hrs : Sorted (i :: rest)) : Passed lower (insert new p) rest := by
  rw [h.insert_eq hp]
  intro r hr
  rcases List.mem_append.1 hr with hr | hr
  · exact h.tail r hr
  · rw [List.mem_singleton.1 hr]
    exact .inr fun s hs => lt_of_le_of_lt hp.second.2 ((sorted_cons.1 hrs).1 s hs)

theorem Passed.sorted_insert (h : Passed lower new (i :: rest)) (hp : Part lower upper i p)
    (hnew : Sorted new) : Sorted (PrimRangeSet.insert new p) := by
  rw [h.insert_eq hp, Sorted, List.pairwise_append]
  refine ⟨hnew, List.pairwise_singleton _ _, fun r hr s hs => ?_⟩
  rw [List.mem_singleton.1 hs]
  exact h.before hp r hr

theorem Passed.covers_insert (h : Passed lower new (i :: rest))
    (hp : Part lower upper i p) (v : α) :
    Covers (PrimRangeSet.insert new p) v ↔ Covers new v ∨ (lower ≤ v ∧ v ≤ upper) ∧
      i.includes v := by
  rw [h.insert_eq hp, covers_append, covers_cons, hp.includes]
  simp only [covers_nil, or_false]

/-- The pass goes on after it has taken the part of a range. -/
theorem Intersected.next (h : Passed lower new (i :: rest)) (hp : Part lower upper i p)
    (hi : i.second ≤ upper) (hrest : Intersected lower upper (insert new p) rest result) :
    Intersected lower upper new (i :: rest) result := by
  refine ⟨fun v => ?_, fun v hv => ?_, hrest.sorted,
    hrest.suffix.trans (List.suffix_cons i rest), ?_⟩
  · rw [hrest.covers, h.covers_insert hp, covers_cons, and_or_left, or_assoc]
  · have hnot : ¬ i.includes v := fun hv' => absurd (hv.trans_le hv'.2) hi.not_gt
    rw [hrest.later v hv, covers_cons, or_iff_right hnot]
  · intro r hr
    rcases hrest.le_upper r hr with hmem | hle
    · rw [h.insert_eq hp, List.mem_append, List.mem_singleton] at hmem
      rcases hmem with hmem | rfl
      · exact .inl hmem
      · exact .inr hp.second.1
    · exact .inr hle

/-- The pass ends with the part of a range that reaches the upper end. -/
theorem Intersected.last (h : Passed lower new (i :: rest)) (hp : Part lower upper i p)
    (hnew : Sorted new) (hrs : Sorted (i :: rest)) (hi : upper ≤ i.second) :
    Intersected lower upper new (i :: rest) (PrimRangeSet.insert new p, i :: rest) := by
  refine ⟨fun v => ?_, fun v hv => Iff.rfl, h.sorted_insert hp hnew,
    List.suffix_rfl, fun r hr => ?_⟩
  · have hrest (hv : v ≤ upper) : ¬ Covers rest v := by
      refine not_covers_of_lt fun s hs => ?_
      exact (hv.trans hi).trans_lt ((sorted_cons.1 hrs).1 s hs)
    rw [h.covers_insert hp, covers_cons]
    refine or_congr Iff.rfl (and_congr_right fun hv => ?_)
    rw [or_iff_left (hrest hv.2)]
  · have hr : r ∈ PrimRangeSet.insert new p := hr
    rw [h.insert_eq hp, List.mem_append, List.mem_singleton] at hr
    rcases hr with hr | rfl
    · exact .inl hr
    · exact .inr hp.second.1

/-- **One pass**, a range at a time. -/
theorem intersectInRange_spec (hle : lower ≤ upper) (hnew : Sorted new) (hrs : Sorted rs)
    (h : Passed lower new rs) :
    Intersected lower upper new rs (intersectInRange lower upper hle new rs) := by
  induction rs generalizing new with
  | nil =>
      exact ⟨by simp [intersectInRange], fun v _ => Iff.rfl, hnew, List.suffix_rfl,
        fun r hr => .inl hr⟩
  | cons i rest ih =>
      obtain ⟨hi, hrest⟩ := sorted_cons.1 hrs
      rw [intersectInRange]
      split
      next hbefore =>
          -- the range is entirely before the ends
          have hpass := ih hnew hrest h.tail
          refine ⟨fun v => ?_, fun v hv => ?_, hpass.sorted,
            hpass.suffix.trans (List.suffix_cons i rest), hpass.le_upper⟩
          · rw [hpass.covers, covers_cons]
            refine or_congr Iff.rfl (and_congr_right fun hv => ?_)
            have hnot : ¬ i.includes v := fun hv' => absurd (hv.1.trans hv'.2) hbefore.not_ge
            rw [or_iff_right hnot]
          · have hnot : ¬ i.includes v := fun hv' =>
              absurd ((hle.trans_lt hv).trans_le hv'.2) hbefore.asymm
            rw [hpass.later v hv, covers_cons, or_iff_right hnot]
      next hbefore =>
          have hbefore := not_lt.1 hbefore
          split
          next hafter =>
              -- entirely after them
              refine ⟨fun v => ?_, fun v _ => Iff.rfl, hnew, List.suffix_rfl, fun r hr => .inl hr⟩
              refine (or_iff_left fun ⟨hv, hcovers⟩ => ?_).symm
              refine not_covers_of_lt (List.forall_mem_cons.2 ⟨?_, fun s hs => ?_⟩) hcovers
              · exact hv.2.trans_lt hafter
              · exact (hv.2.trans_lt hafter).trans_le (i.le.trans (hi s hs).le)
          next hafter =>
              have hafter := not_lt.1 hafter
              split
              next hl =>
                  split
                  next hu =>
                      refine .last h
                        ⟨fun v => ⟨fun hv => ⟨hv, hl.1.trans hv.1, hv.2.trans hu.2⟩, And.left⟩⟩
                        hnew hrs hu.2
                  next hu =>
                      have hlt : i.second < upper := not_le.1 fun hle' => hu ⟨hafter, hle'⟩
                      have hp : Part lower upper i ⟨lower, i.second, hl.2⟩ :=
                        ⟨fun v => ⟨fun hv => ⟨⟨hv.1, hv.2.trans hlt.le⟩, hl.1.trans hv.1, hv.2⟩,
                          fun hv => ⟨hv.1.1, hv.2.2⟩⟩⟩
                      exact .next h hp hlt.le (ih (h.sorted_insert hp hnew) hrest (h.insert hp hrs))
              next hl =>
                  have hlt : lower < i.first := not_le.1 fun hle' => hl ⟨hle', hbefore⟩
                  split
                  next hu =>
                      refine .last h
                        ⟨fun v => ⟨fun hv => ⟨⟨hlt.le.trans hv.1, hv.2⟩, hv.1, hv.2.trans hu.2⟩,
                        fun hv => ⟨hv.2.1, hv.1.2⟩⟩⟩ hnew hrs hu.2
                  next hu =>
                      have hlt' : i.second < upper := not_le.1 fun hle' => hu ⟨hafter, hle'⟩
                      have hp : Part lower upper i i :=
                        ⟨fun v =>
                          ⟨fun hv => ⟨⟨hlt.le.trans hv.1, hv.2.trans hlt'.le⟩, hv⟩, And.right⟩⟩
                      exact .next h hp hlt'.le
                        (ih (h.sorted_insert hp hnew) hrest (h.insert hp hrs))

end Pass

end PrimRangeSet

/-! ### Sets -/

/-- `RangeSet`: closed ranges that are apart and ascend. -/
structure RangeSet (isUnsigned : Bool) (width : Nat) where
  ranges : PrimRangeSet (APSInt isUnsigned width)
  sorted : ranges.Sorted

namespace RangeSet

open PrimRangeSet

variable {u : Bool} {n : Nat}

/-- `v` is in the set. -/
def Mem (rs : RangeSet u n) (v : BitVec n) : Prop :=
  Covers rs.ranges ⟨v⟩

/-- `RangeSet(is_unsigned, bit_width)`: all numbers. -/
def full (u : Bool) (n : Nat) : RangeSet u n where
  ranges := [⟨APSInt.minValue, APSInt.maxValue, APSInt.minValue_le _⟩]
  sorted := List.pairwise_singleton _ _

@[simp] theorem mem_full (v : BitVec n) : (full u n).Mem v := by
  rw [Mem, full, covers_cons]
  exact .inl ⟨APSInt.minValue_le _, APSInt.le_maxValue _⟩

theorem passed_nil {lower : APSInt u n} {rs : PrimRangeSet (APSInt u n)} : Passed lower [] rs :=
  fun _ h => nomatch h

theorem sorted_nil : Sorted ([] : PrimRangeSet (APSInt u n)) :=
  .nil

/-- The first loop of `intersect` for a range that wraps around: from the least number on. -/
theorem first_pass (rs : RangeSet u n) (upper : APSInt u n) :
    Intersected APSInt.minValue upper [] rs.ranges
      (intersectInRange APSInt.minValue upper (APSInt.minValue_le upper) [] rs.ranges) :=
  intersectInRange_spec _ sorted_nil rs.sorted passed_nil

/-- The second loop goes on where the first one stopped. -/
theorem second_pass (rs : RangeSet u n) {lower upper : APSInt u n} (h : upper < lower) :
    let first := intersectInRange APSInt.minValue upper (APSInt.minValue_le upper) [] rs.ranges
    Intersected lower APSInt.maxValue first.1 first.2
      (intersectInRange lower APSInt.maxValue (APSInt.le_maxValue lower) first.1 first.2) := by
  have hfirst := rs.first_pass upper
  refine intersectInRange_spec _ hfirst.sorted (rs.sorted.sublist hfirst.suffix.sublist) ?_
  intro r hr
  rcases hfirst.le_upper r hr with hmem | hle
  · cases hmem
  · exact .inl (hle.trans_lt h)

/-- `RangeSet::intersect`: with the closed range, which wraps around if its ends are the other
way round. -/
def intersect (rs : RangeSet u n) (lower upper : APSInt u n) : RangeSet u n :=
  if h : lower ≤ upper then
    ⟨(intersectInRange lower upper h [] rs.ranges).1,
      (intersectInRange_spec h sorted_nil rs.sorted passed_nil).sorted⟩
  else
    -- the lower range first, as the iterator is not reset
    let first := intersectInRange APSInt.minValue upper (APSInt.minValue_le upper) [] rs.ranges
    ⟨(intersectInRange lower APSInt.maxValue (APSInt.le_maxValue lower) first.1 first.2).1,
      (rs.second_pass (not_le.1 h)).sorted⟩

/-- **Intersecting keeps what lies on the arc.** -/
theorem mem_intersect (rs : RangeSet u n) (lower upper : APSInt u n) (v : BitVec n) :
    (rs.intersect lower upper).Mem v ↔
      rs.Mem v ∧ Bits.InArc lower.toBitVec upper.toBitVec v := by
  rw [Bits.inArc_iff u, intersect]
  by_cases h : lower ≤ upper
  · have hpass := intersectInRange_spec h sorted_nil rs.sorted passed_nil
    rw [dif_pos h, if_pos (APSInt.le_iff.1 h), and_comm]
    refine (hpass.covers ⟨v⟩).trans (or_iff_right (covers_nil _))
  · have hlt := not_le.1 h
    have hfirst := (rs.first_pass upper).covers ⟨v⟩
    have hsecond := (rs.second_pass hlt).covers ⟨v⟩
    rw [dif_neg h, if_neg (mt APSInt.le_iff.2 h)]
    refine hsecond.trans ?_
    rw [hfirst, or_iff_right (covers_nil _), and_comm (a := rs.Mem v), or_and_right]
    refine or_congr ?_ ?_
    · exact and_congr_left fun _ => and_iff_right (APSInt.minValue_le _)
    · rw [and_iff_left (APSInt.le_maxValue _)]
      exact and_congr_right fun hv => (rs.first_pass upper).later _ (hlt.trans_le hv)

/-! ### Comparisons -/

section Comparisons

variable (rs : RangeSet u n) (value adjustment : BitVec n)

/-- `intersectLT`: the numbers `x` with `adjustment + x` less than `value`. -/
def intersectLT : RangeSet u n :=
  let adj : APSInt u n := ⟨adjustment⟩
  let val : APSInt u n := ⟨value⟩
  rs.intersect (APSInt.minValue - adj) (val - adj).dec

def intersectLE : RangeSet u n :=
  let adj : APSInt u n := ⟨adjustment⟩
  let val : APSInt u n := ⟨value⟩
  rs.intersect (APSInt.minValue - adj) (val - adj)

def intersectGT : RangeSet u n :=
  let adj : APSInt u n := ⟨adjustment⟩
  let val : APSInt u n := ⟨value⟩
  rs.intersect (val - adj).inc (APSInt.maxValue - adj)

def intersectGE : RangeSet u n :=
  let adj : APSInt u n := ⟨adjustment⟩
  let val : APSInt u n := ⟨value⟩
  rs.intersect (val - adj) (APSInt.maxValue - adj)

def intersectEQ : RangeSet u n :=
  let adj : APSInt u n := ⟨adjustment⟩
  let val : APSInt u n := ⟨value⟩
  rs.intersect (val - adj) (val - adj)

def intersectNE : RangeSet u n :=
  let adj : APSInt u n := ⟨adjustment⟩
  let val : APSInt u n := ⟨value⟩
  rs.intersect (val - adj).inc (val - adj).dec

variable {rs value adjustment} {v : BitVec n}

theorem mem_intersectLT (h : value ≠ Bits.least u n) :
    (rs.intersectLT value adjustment).Mem v ↔
      rs.Mem v ∧ Bits.rank u (adjustment + v) < Bits.rank u value := by
  refine (rs.mem_intersect _ _ v).trans (and_congr_right fun _ => ?_)
  show Bits.InArc (Bits.least u n - adjustment) (value - adjustment - 1) v ↔ _
  rw [sub_right_comm, Bits.inArc_sub, Bits.inArc_lt h]

theorem mem_intersectLE : (rs.intersectLE value adjustment).Mem v ↔
    rs.Mem v ∧ Bits.rank u (adjustment + v) ≤ Bits.rank u value := by
  refine (rs.mem_intersect _ _ v).trans (and_congr_right fun _ => ?_)
  show Bits.InArc (Bits.least u n - adjustment) (value - adjustment) v ↔ _
  rw [Bits.inArc_sub, Bits.inArc_le]

theorem mem_intersectGT (h : value ≠ Bits.greatest u n) :
    (rs.intersectGT value adjustment).Mem v ↔
      rs.Mem v ∧ Bits.rank u value < Bits.rank u (adjustment + v) := by
  refine (rs.mem_intersect _ _ v).trans (and_congr_right fun _ => ?_)
  show Bits.InArc (value - adjustment + 1) (APSInt.maxValue.toBitVec - adjustment) v ↔ _
  rw [APSInt.toBitVec_maxValue, sub_add_eq_add_sub, Bits.inArc_sub, Bits.inArc_gt h]

theorem mem_intersectGE : (rs.intersectGE value adjustment).Mem v ↔
    rs.Mem v ∧ Bits.rank u value ≤ Bits.rank u (adjustment + v) := by
  refine (rs.mem_intersect _ _ v).trans (and_congr_right fun _ => ?_)
  show Bits.InArc (value - adjustment) (APSInt.maxValue.toBitVec - adjustment) v ↔ _
  rw [APSInt.toBitVec_maxValue, Bits.inArc_sub, Bits.inArc_ge]

theorem mem_intersectEQ : (rs.intersectEQ value adjustment).Mem v ↔
    rs.Mem v ∧ adjustment + v = value := by
  refine (rs.mem_intersect _ _ v).trans (and_congr_right fun _ => ?_)
  show Bits.InArc (value - adjustment) (value - adjustment) v ↔ _
  rw [Bits.inArc_sub, Bits.inArc_self]

theorem mem_intersectNE (hn : 0 < n) : (rs.intersectNE value adjustment).Mem v ↔
    rs.Mem v ∧ adjustment + v ≠ value := by
  refine (rs.mem_intersect _ _ v).trans (and_congr_right fun _ => ?_)
  show Bits.InArc (value - adjustment + 1) (value - adjustment - 1) v ↔ _
  rw [sub_add_eq_add_sub, sub_right_comm, Bits.inArc_sub, Bits.inArc_ne hn]

end Comparisons

end RangeSet

end Qsym
