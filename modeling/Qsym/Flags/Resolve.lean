import Qsym.Flags.Eflags
import Qsym.Ring.Recent

/-!
# Qsym.Flags.Resolve

Which operation a flag is taken from. The ring of `Eflags` holds the most recent
kinds (`ring_after`) and the table the most recent operation of each kind
(`operations_after`), so while the index of the walk stays at or above 0 it sees the
history in order. Below 0 the index is reduced modulo `2^32` before it is reduced
modulo 12, which is four slots off (`opKinds_offset`), and a history longer than the
ring may have lost the operation altogether.
-/

namespace Qsym

open Procedure Ring

/-- `flags & flag` is not zero. -/
def EflagSet.has (s : EflagSet) (f : Eflag) : Bool :=
  s &&& f.mask != 0

/-- The position of the flag in `EFLAGS`. -/
def Eflag.index : Eflag → Nat
  | cf => 0
  | pf => 2
  | af => 4
  | zf => 6
  | sf => 7
  | of => 11

namespace EflagSet

theorem mask_eq_twoPow (f : Eflag) : f.mask = BitVec.twoPow 32 f.index := by
  cases f <;> rfl

theorem has_eq_getLsbD (s : EflagSet) (f : Eflag) : has s f = s.getLsbD f.index := by
  rw [has, mask_eq_twoPow, BitVec.and_twoPow]
  cases s.getLsbD f.index with
  | false => simp
  | true => cases f <;> rfl

theorem has_or (s t : EflagSet) (f : Eflag) : has (s ||| t) f = (has s f || has t f) := by
  simp [has_eq_getLsbD]

theorem has_and (s t : EflagSet) (f : Eflag) : has (s &&& t) f = (has s f && has t f) := by
  simp [has_eq_getLsbD]

theorem has_and_not (s t : EflagSet) (f : Eflag) : has (s &&& ~~~t) f = (has s f && !has t f) := by
  have hf : f.index < 32 := by cases f <;> decide
  simp [has_eq_getLsbD, hf]

end EflagSet

/-- The operation defines the flag. -/
def OpKind.defines (k : OpKind) (f : Eflag) : Bool :=
  k.getAffectedEflags.has f

/-- The operation defines the flag or leaves it undefined. -/
def OpKind.touches (k : OpKind) (f : Eflag) : Bool :=
  k.getEflags.has f

theorem OpKind.touches_eq (k : OpKind) (f : Eflag) :
    k.touches f = (k.defines f || k.getUndefinedEflags.has f) :=
  EflagSet.has_or ..

/-! ### Histories -/

/-- The arguments of `Eflags::set`. -/
structure FlagSet where
  kind : OpKind
  result : Option Expr
  dst : Option Expr
  src : Option Expr
  deriving DecidableEq

/-- What `Eflags::set` keeps. -/
abbrev FlagSet.operation (s : FlagSet) : FlagOperation :=
  .set s.kind s.result s.dst s.src

/-- The calls that change an `Eflags`. -/
inductive EflagsCall
  | set (s : FlagSet)
  | invalidate (kind : OpKind)
  deriving DecidableEq

/-- A history of calls, the most recent one first. -/
abbrev FlagHistory := List EflagsCall

namespace FlagHistory

/-- The state after the calls, from a fresh `Eflags`. -/
def eflags : FlagHistory → Eflags
  | [] => .init
  | .set s :: h => (eflags h).set s.kind s.result s.dst s.src
  | .invalidate k :: h => (eflags h).invalidate k

/-- The calls of `set`. -/
def sets : FlagHistory → List FlagSet
  | [] => []
  | .set s :: h => s :: sets h
  | .invalidate _ :: h => sets h

/-- The kinds of the calls of `set`. -/
def kinds (h : FlagHistory) : List OpKind :=
  (sets h).map FlagSet.kind

/-- The most recent `set` whose operation defines the flag. -/
def lastDefining (h : FlagHistory) (f : Eflag) : Option FlagSet :=
  (sets h).find? fun s => s.kind.defines f

end FlagHistory

/-! ### What the state keeps of a history -/

namespace Eflags

/-- The kinds as a ring. -/
def ring (e : Eflags) : Recent OpKind.last OpKind :=
  { start := slot e.start, slots := e.opKinds }

theorem val_slot (i : UInt32) : (slot i).val = i.toNat % 12 :=
  UInt32.toNat_mod i 12

theorem ring_set (e : Eflags) (h : e.start.toNat < 12) (k : OpKind) (result dst src : Option Expr) :
    (e.set k result dst src).ring = e.ring.push k := by
  have hslot : slot ((e.start + 1) % 12) = slot e.start + 1 := by
    ext
    simp only [val_slot, Fin.val_add, UInt32.toNat_mod, UInt32.toNat_add]
    simp only [UInt32.reduceToNat, OpKind.last]
    omega
  simp only [ring, set, Recent.push, hslot]

end Eflags

namespace FlagHistory

variable {h : FlagHistory}

theorem start_eflags (h : FlagHistory) : (eflags h).start.toNat = (kinds h).length % 12 := by
  induction h with
  | nil => rfl
  | cons c h ih =>
      cases c with
      | invalidate k => exact ih
      | set s =>
          show (((eflags h).start + 1) % 12).toNat = ((kinds h).length + 1) % 12
          simp only [UInt32.toNat_mod, UInt32.toNat_add, UInt32.reduceToNat, ih]
          omega

/-- The ring holds the most recent kinds. -/
theorem ring_eflags (h : FlagHistory) : (eflags h).ring = Recent.ofHistory (kinds h) := by
  induction h with
  | nil => rfl
  | cons c h ih =>
      cases c with
      | invalidate k => exact ih
      | set s =>
          have hlt : (eflags h).start.toNat < 12 := by
            rw [start_eflags]
            exact Nat.mod_lt _ (by decide)
          exact (Eflags.ring_set _ hlt ..).trans (congrArg (Recent.push · s.kind) ih)

/-- The table holds the most recent operation of every kind. -/
theorem operations_eflags (h : FlagHistory) (k : OpKind) :
    (eflags h).operations k = (((sets h).find? (·.kind = k)).map FlagSet.operation).getD .init := by
  induction h with
  | nil => rfl
  | cons c h ih =>
      cases c with
      | invalidate k => exact ih
      | set s =>
          show Function.update (eflags h).operations s.kind s.operation k = _
          by_cases hk : s.kind = k
          · subst hk
            simp [sets]
          · rw [Function.update_of_ne (Ne.symm hk), ih]
            simp [sets, hk]

/-- The operation of a kind that came in is of that kind. -/
theorem flags_operations {k : OpKind} (hk : k ∈ kinds h) :
    ((eflags h).operations k).flags = k.getEflags := by
  obtain ⟨s, hs, rfl⟩ := List.mem_map.1 hk
  cases hf : (sets h).find? (·.kind = s.kind) with
  | none => exact absurd (List.find?_eq_none.1 hf s hs) (by simp)
  | some t =>
      have ht : t.kind = s.kind := by simpa using List.find?_some hf
      rw [operations_eflags, hf, ← ht]
      rfl

/-- A known flag was defined by the last operation that touches it. -/
theorem split_of_has {f : Eflag} (hv : (eflags h).validSet.has f = true) :
    ∃ newer s older, sets h = newer ++ s :: older ∧
      (∀ t ∈ newer, t.kind.touches f = false) ∧ s.kind.defines f = true := by
  induction h with
  | nil => cases f <;> cases hv
  | cons c h ih =>
      cases c with
      | invalidate k =>
          have hv' : ((eflags h).validSet &&& ~~~k.getEflags).has f = true := hv
          rw [EflagSet.has_and_not, Bool.and_eq_true] at hv'
          exact ih hv'.1
      | set s =>
          have hv' : (((eflags h).validSet &&& ~~~s.kind.getUndefinedEflags) |||
            s.kind.getAffectedEflags).has f = true := hv
          rw [EflagSet.has_or, EflagSet.has_and_not, Bool.or_eq_true, Bool.and_eq_true,
            Bool.not_eq_true'] at hv'
          cases hd : s.kind.defines f with
          | true => exact ⟨[], s, sets h, rfl, nofun, hd⟩
          | false =>
              obtain ⟨hv', hu⟩ := hv'.resolve_right (by simp [OpKind.defines] at hd; simp [hd])
              obtain ⟨newer, t, older, hsets, hnewer, ht⟩ := ih hv'
              have hs : s.kind.touches f = false := by rw [OpKind.touches_eq, hd, hu]; rfl
              exact ⟨s :: newer, t, older, congrArg (s :: ·) hsets,
                List.forall_mem_cons.2 ⟨hs, hnewer⟩, ht⟩

theorem has_of_isValid {e : Eflags} {jcc : JccKind} (hv : e.isValid jcc = true) {f : Eflag}
    (hf : f ∈ jcc.flags) : e.validSet.has f = true := by
  have hjcc : jcc.getEflags.has f = true := by
    cases jcc <;> cases f <;> first | rfl | simp [JccKind.flags] at hf
  rw [← beq_iff_eq.1 hv, EflagSet.has_and, Bool.and_eq_true] at hjcc
  exact hjcc.1

/-! ### The walk -/

/-- The kind at offset `i` of the walk: `i` sets back, but four less, around the ring,
where the index goes below 0. -/
def kindAt (h : FlagHistory) (i : Nat) : Option OpKind :=
  (kinds h)[if i ≤ (kinds h).length % 12 then i else (i + 8) % 12]?

/-- The index at offset `i` is `start - i` modulo `2^32`. -/
theorem opKinds_offset (h : FlagHistory) {i : Nat} (hi : i < 12) :
    (eflags h).opKinds (Eflags.slot ((eflags h).start - UInt32.ofNat i)) = kindAt h i := by
  have hstart := start_eflags h
  have hring := congrArg Recent.slots (ring_eflags h)
  have hpos := congrArg (fun r => r.start.val) (ring_eflags h)
  simp only [Eflags.ring, Eflags.val_slot, Recent.start_ofHistory, Fin.val_ofNat] at hring hpos
  have hslot : ∀ j, j < 12 → (12 + (kinds h).length % 12 - j) % 12 =
      ((eflags h).start - UInt32.ofNat i).toNat % 12 →
      (eflags h).opKinds (Eflags.slot ((eflags h).start - UInt32.ofNat i)) = (kinds h)[j]? := by
    intro j hj heq
    rw [← Recent.slots_ofHistory (m := OpKind.last) (kinds h) hj, hring]
    congr 1
    ext
    rw [Eflags.val_slot, ← heq, Recent.start_ofHistory, Fin.sub_def]
    simp only [Fin.val_ofNat, OpKind.last]
    omega
  have hsub : ((eflags h).start - UInt32.ofNat i).toNat =
      (2 ^ 32 - i + (kinds h).length % 12) % 2 ^ 32 := by
    rw [UInt32.toNat_sub, hstart, UInt32.toNat_ofNat_of_lt' (by simp [UInt32.size]; omega)]
  rw [kindAt]
  split
  next hle => exact hslot i hi (by rw [hsub]; omega)
  next hle => exact hslot _ (Nat.mod_lt _ (by decide)) (by rw [hsub]; omega)

/-- Offsets at kinds that do not touch the flag are passed over. -/
theorem search_skip (h : FlagHistory) {f : Eflag} {a k n : Nat} (hk : a + (k + n) ≤ 12)
    (hskip : ∀ i, a ≤ i → i < a + k → ∃ o, kindAt h i = some o ∧ o.touches f = false) :
    (eflags h).search f (List.range' a (k + n)) =
      (eflags h).search f (List.range' (a + k) n) := by
  induction k generalizing a with
  | zero => simp
  | succ k ih =>
      obtain ⟨o, ho, hf⟩ := hskip a (Nat.le_refl a) (by omega)
      rw [show k + 1 + n = (k + n) + 1 by omega, List.range'_succ, Eflags.search,
        opKinds_offset h (by omega), ho]
      have hflags := flags_operations (h := h) (List.mem_of_getElem? ho)
      have hno : ¬ ((eflags h).operations o).flags &&& f.mask ≠ 0 := by
        rw [hflags]
        simpa [OpKind.touches, EflagSet.has] using hf
      simp only [if_neg hno]
      rw [ih (by omega) fun i hi hlt => hskip i (by omega) (by omega)]
      congr 2
      omega

/-- The walk ends at a kind that touches the flag. -/
theorem search_here (h : FlagHistory) {f : Eflag} {a n : Nat} (ha : a < 12) {o : OpKind}
    (ho : kindAt h a = some o) (hf : o.touches f = true) :
    (eflags h).search f (List.range' a (n + 1)) = .found o := by
  rw [List.range'_succ, Eflags.search, opKinds_offset h ha, ho]
  have hflags := flags_operations (h := h) (List.mem_of_getElem? ho)
  have hyes : ((eflags h).operations o).flags &&& f.mask ≠ 0 := by
    rw [hflags]
    simpa [OpKind.touches, EflagSet.has] using hf
  simp only [if_pos hyes]

/-- Where every slot is set, the walk is a search among the kinds it reads. -/
theorem search_eq_find (h : FlagHistory) {f : Eflag} {a n : Nat} (hn : a + n ≤ 12)
    (hset : ∀ i, a ≤ i → i < 12 → (kindAt h i).isSome = true) :
    (eflags h).search f (List.range' a n) =
      match ((List.range' a n).filterMap (kindAt h)).find? (·.touches f) with
      | some o => .found o
      | none => .missing := by
  induction n generalizing a with
  | zero => rfl
  | succ n ih =>
      obtain ⟨o, ho⟩ := Option.isSome_iff_exists.1 (hset a (Nat.le_refl a) (by omega))
      cases hf : o.touches f with
      | true =>
          rw [search_here h (by omega) ho hf, List.range'_succ, List.filterMap_cons_some ho]
          simp [hf]
      | false =>
          rw [show n + 1 = 1 + n by omega, search_skip h (by omega), show 1 + n = n + 1 by omega,
            List.range'_succ, List.filterMap_cons_some ho]
          · simp only [List.find?_cons, hf]
            exact ih (by omega) fun i hi => hset i (by omega)
          · intro i hi hlt
            obtain rfl : i = a := by omega
            exact ⟨o, ho, hf⟩

/-- The number of sets since the last one that defines the flag. -/
def age (h : FlagHistory) (f : Eflag) : Nat :=
  (kinds h).findIdx fun k => k.defines f

/-- The walk comes to the last operation that defines the flag: either before its index
goes below 0, or because of the operations that touch the flag it then comes to one of
the same kind first. -/
def InReach (h : FlagHistory) (f : Eflag) : Prop :=
  let start := (kinds h).length % 12
  age h f ≤ start ∨
    ((List.range' (start + 1) (11 - start)).filterMap (kindAt h)).find? (fun k => k.touches f) =
      (lastDefining h f).map FlagSet.kind

instance (h : FlagHistory) (f : Eflag) : Decidable (InReach h f) := by
  unfold InReach
  infer_instance

/-- `computeFlag` takes the flag from the result and the operands of `s`. -/
def Resolves (h : FlagHistory) (f : Eflag) (s : FlagSet) : Prop :=
  (eflags h).find f = .found s.kind ∧ (eflags h).operations s.kind = s.operation

section Split

variable {f : Eflag} {newer older : List FlagSet} {s : FlagSet}
variable (hsets : sets h = newer ++ s :: older)
  (hnewer : ∀ t ∈ newer, t.kind.touches f = false) (hs : s.kind.defines f = true)

include hs in
theorem touches_of_defines : s.kind.touches f = true := by
  rw [OpKind.touches_eq, hs]
  rfl

include hnewer in
theorem not_defines_newer : ∀ t ∈ newer, t.kind.defines f = false := by
  intro t ht
  have := hnewer t ht
  rw [OpKind.touches_eq, Bool.or_eq_false_iff] at this
  exact this.1

include hsets in
theorem kinds_split :
    kinds h = newer.map FlagSet.kind ++ s.kind :: older.map FlagSet.kind := by
  simp [kinds, hsets]

include hsets hnewer hs in
theorem lastDefining_split : lastDefining h f = some s := by
  have hno := not_defines_newer hnewer
  rw [lastDefining, hsets, List.find?_append, List.find?_eq_none.2 (by simpa using hno)]
  simp [hs]

include hsets hnewer hs in
theorem operations_split : (eflags h).operations s.kind = s.operation := by
  have hno : ∀ t ∈ newer, t.kind ≠ s.kind := fun t ht heq =>
    absurd (heq ▸ hnewer t ht) (by simp [touches_of_defines hs])
  rw [operations_eflags, hsets, List.find?_append, List.find?_eq_none.2 (by simpa using hno)]
  simp

include hsets hnewer hs in
theorem age_split : age h f = newer.length := by
  have hno := not_defines_newer hnewer
  have hnone : (newer.map FlagSet.kind).findIdx (fun k => k.defines f) = newer.length := by
    rw [← List.length_map FlagSet.kind]
    exact List.findIdx_eq_length.2 (by simpa using hno)
  rw [age, kinds_split hsets, List.findIdx_append, hnone]
  simp [List.findIdx_cons, hs]

include hsets hnewer in
/-- The walk passes over the sets after the last one that defines the flag, as long as
its index is at least 0. -/
theorem kindAt_newer {i : Nat} (hi : i < newer.length) (hle : i ≤ (kinds h).length % 12) :
    ∃ o, kindAt h i = some o ∧ o.touches f = false := by
  refine ⟨newer[i].kind, ?_, hnewer _ (List.getElem_mem hi)⟩
  rw [kindAt, if_pos hle, kinds_split hsets, List.getElem?_append_left (by simpa using hi)]
  simp [hi]

theorem range_last {k n : Nat} (h : k + n = 12) :
    List.range OpKind.last = List.range' 0 (k + n) := by
  rw [h]
  exact List.range_eq_range'

include hsets hnewer hs in
theorem find_split (hle : newer.length ≤ (kinds h).length % 12) :
    (eflags h).find f = .found s.kind := by
  rw [Eflags.find, range_last (k := newer.length) (n := 11 - newer.length + 1) (by omega),
    search_skip h (by omega)]
  · refine search_here h (by omega) ?_ (touches_of_defines hs)
    rw [Nat.zero_add, kindAt, if_pos hle, kinds_split hsets]
    simp
  · exact fun i _ hi => kindAt_newer hsets hnewer (by omega) (by omega)

include hsets hnewer in
/-- Below 0 all slots are set, and the walk goes on among what it reads there. -/
theorem find_split_wrapped (hlt : (kinds h).length % 12 < newer.length) :
    (eflags h).find f =
      match ((List.range' ((kinds h).length % 12 + 1) (11 - (kinds h).length % 12)).filterMap
        (kindAt h)).find? (fun k => k.touches f) with
      | some o => .found o
      | none => .missing := by
  have hlen : (kinds h).length = newer.length + 1 + older.length := by
    rw [kinds_split hsets]
    simp
    omega
  rw [Eflags.find, range_last (k := (kinds h).length % 12 + 1) (n := 11 - (kinds h).length % 12)
    (by omega), search_skip h (by omega), Nat.zero_add, search_eq_find h (by omega)]
  · intro i _ hi
    rw [kindAt, isSome_getElem?]
    split <;> omega
  · exact fun i _ hi => kindAt_newer hsets hnewer (by omega) (by omega)

end Split

theorem resolves_iff {f : Eflag} (hv : (eflags h).validSet.has f = true) :
    (∃ s, lastDefining h f = some s ∧ Resolves h f s) ↔ InReach h f := by
  obtain ⟨newer, s, older, hsets, hnewer, hs⟩ := split_of_has hv
  have hlast := lastDefining_split hsets hnewer hs
  have hop := operations_split hsets hnewer hs
  have hage := age_split hsets hnewer hs
  by_cases hle : newer.length ≤ (kinds h).length % 12
  · exact iff_of_true ⟨s, hlast, find_split hsets hnewer hs hle, hop⟩ (.inl (hage ▸ hle))
  · have hfind := find_split_wrapped hsets hnewer (by omega)
    simp only [Resolves, hfind, hlast, InReach, hage, hle, false_or, Option.map_some,
      Option.some.injEq, exists_eq_left', hop, and_true]
    generalize ((List.range' ((kinds h).length % 12 + 1) (11 - (kinds h).length % 12)).filterMap
      (kindAt h)).find? (fun k => k.touches f) = found
    cases found <;> simp

/-- **Lazy flags.** When a condition may be asked for, its flags are all taken from the
most recent operations that define them, none of them missing and no empty slot read,
if and only if each is in reach of the walk. -/
theorem computeFlag_resolves_iff {jcc : JccKind} (hv : (eflags h).isValid jcc = true) :
    (∀ f ∈ jcc.flags, ∃ s, lastDefining h f = some s ∧ Resolves h f s) ↔
      ∀ f ∈ jcc.flags, InReach h f :=
  forall₂_congr fun _ hf => resolves_iff (has_of_isValid hv hf)

/-- A set of the kind on two input bytes. -/
def onBytes (kind : OpKind) : EflagsCall :=
  .set { kind, result := some (.read 2), dst := some (.read 0), src := some (.read 1) }

/-- A comparison and one `INC` after it. -/
theorem computeFlag_resolves_sub :
    (eflags [onBytes .inc, onBytes .sub]).isValid .be = true ∧ ∀ f ∈ JccKind.be.flags,
      ∃ s, lastDefining [onBytes .inc, onBytes .sub] f = some s ∧
        Resolves [onBytes .inc, onBytes .sub] f s :=
  ⟨by decide, (computeFlag_resolves_iff (by decide)).2 (by decide)⟩

/-- Ten additions, a comparison and an `INC`: the carry is valid, but it is taken from the
last addition. -/
theorem computeFlag_not_resolves :
    let h : FlagHistory := onBytes .inc :: onBytes .sub :: List.replicate 10 (onBytes .add)
    (eflags h).isValid .b = true ∧
      ¬ ∀ f ∈ JccKind.b.flags, ∃ s, lastDefining h f = some s ∧ Resolves h f s := by
  refine ⟨by decide, fun h => ?_⟩
  obtain ⟨s, hs, hfind, -⟩ := h .cf (by decide)
  have hsub : s.kind = .sub := by
    cases hs
    rfl
  rw [hsub] at hfind
  revert hfind
  decide

end FlagHistory

end Qsym
