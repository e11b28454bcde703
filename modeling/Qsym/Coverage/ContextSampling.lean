import Qsym.Coverage.AflTraceMap
import Qsym.Bits.Backoff

/-!
# Qsym.Coverage.ContextSampling

How often `isInterestingBranch` looks at the context map. The count of an edge that decides
it is a byte, so the back-off starts anew every 256 calls of the edge (`trail_bits`): within
the first 257 it is logarithmic, over a long loop it is not (`trail_consulted_iff`).
-/

namespace Qsym

namespace AflTraceMap

/-- By this membership in `visited_` is decided. -/
theorem lawfulBEq_addr : LawfulBEq Addr :=
  inferInstance

attribute [local instance] lawfulBEq_addr

/-- `isInterestingContext` gets to the loop over `visited_`. -/
def consulted (T : Tracer) (bits : Addr) : Bool :=
  T.context_sensitive && isPowerOfTwoOrZero bits

/-- One call of `isInterestingBranch`. -/
structure Hit where
  index : Fin kMapSize
  hash : Addr
  /-- The count of the edge before the call. -/
  bits : Byte
  consulted : Bool
  /-- What entered `visited_`. -/
  entered : List Addr

/-- The calls of a run, up to one that ends the process. -/
def trail (T : Tracer) (s : AflTraceMap) (file : File) : List (Addr × Bool) → List Hit
  | [] => []
  | (pc, taken) :: calls =>
      match T.hashPc pc taken, s.isInterestingBranch T pc taken file with
      | some h, some (_, s', file') =>
          let bits := s.virgin_map_ (s.getIndex h)
          { index := s.getIndex h, hash := h, bits
            consulted := consulted T (bits.setWidth 64)
            entered := s'.visited_.filter (· ∉ s.visited_) } :: trail T s' file' calls
      | _, _ => []

variable {T : Tracer} {s s' : AflTraceMap} {pc : Addr} {taken interesting : Bool}
  {file file' : File} {calls : List (Addr × Bool)} {before after : List Hit} {hit : Hit}

/-! ### One call -/

/-- Without a look at the context map the answer is no, and nothing changes. -/
theorem isInterestingContext_eq (s : AflTraceMap) (T : Tracer) (h bits : Addr) :
    s.isInterestingContext T h bits =
      if consulted T bits then
        ((s.visited_.foldl (visitContext h) (s.context_map_, false)).2, { s with
          context_map_ := (s.visited_.foldl (visitContext h) (s.context_map_, false)).1
          visited_ := if bits = 0 then insertVisited h s.visited_ else s.visited_ })
      else (false, s) := by
  unfold isInterestingContext consulted
  cases T.context_sensitive <;> cases isPowerOfTwoOrZero bits <;> rfl

theorem isInterestingContext_visited (s : AflTraceMap) (T : Tracer) (h bits : Addr) :
    (s.isInterestingContext T h bits).2.visited_ =
      if T.context_sensitive = true ∧ bits = 0 then insertVisited h s.visited_
      else s.visited_ := by
  rw [isInterestingContext_eq]
  by_cases hbits : bits = 0
  · cases hT : T.context_sensitive <;> simp [consulted, hT, hbits, isPowerOfTwoOrZero]
  · simp only [hbits, and_false, if_false]
    split <;> rfl

/-- Every path of a call remembers its hash and keeps what the look at the contexts has
made of `visited_`. -/
theorem isInterestingBranch_after {h : Addr} (hh : T.hashPc pc taken = some h)
    (hr : s.isInterestingBranch T pc taken file = some (interesting, s', file')) :
    s'.prev_loc_ = h ∧
      s'.visited_ = (s.isInterestingContext T h
        ((s.virgin_map_ (s.getIndex h)).setWidth 64)).2.visited_ := by
  unfold isInterestingBranch at hr
  simp only [hh, Option.bind_eq_bind, Option.bind_some] at hr
  generalize s.isInterestingContext T h _ = found at hr ⊢
  split at hr
  next =>
    cases hinv : T.hashPc pc !taken with
    | none => simp [hinv] at hr
    | some inv_h =>
        simp only [hinv, Option.bind_some, Option.pure_def, Option.some.injEq,
          Prod.mk.injEq] at hr
        obtain ⟨rfl, rfl, rfl⟩ := hr
        exact ⟨rfl, rfl⟩
  next =>
    split at hr
    · simp only [Option.pure_def, Option.some.injEq, Prod.mk.injEq] at hr
      obtain ⟨rfl, rfl, rfl⟩ := hr
      exact ⟨rfl, rfl⟩
    · simp only [Option.pure_def, Option.some.injEq, Prod.mk.injEq] at hr
      obtain ⟨rfl, rfl, rfl⟩ := hr
      exact ⟨rfl, rfl⟩

theorem mem_insertVisited {x h : Addr} {visited : List Addr} :
    x ∈ insertVisited h visited ↔ x = h ∨ x ∈ visited := by
  unfold insertVisited
  split
  next hmem =>
    constructor
    · exact .inr
    · rintro (rfl | hx)
      · exact hmem
      · exact hx
  next => exact List.mem_orderedInsert _

/-! ### Runs -/

/-- What one call adds to `visited_`: its hash, when the count of its edge is 0. -/
theorem mem_visited {h x : Addr} (hh : T.hashPc pc taken = some h)
    (hr : s.isInterestingBranch T pc taken file = some (interesting, s', file')) :
    x ∈ s'.visited_ ↔ x ∈ s.visited_ ∨
      x = h ∧ T.context_sensitive = true ∧ s.virgin_map_ (s.getIndex h) = 0 := by
  have hzero : (s.virgin_map_ (s.getIndex h)).setWidth 64 = 0 ↔
      s.virgin_map_ (s.getIndex h) = 0 := by
    rw [← BitVec.toNat_inj, ← BitVec.toNat_inj, BitVec.toNat_setWidth,
      Nat.mod_eq_of_lt (Nat.lt_of_lt_of_le (BitVec.isLt _) (by decide))]
    rfl
  rw [(isInterestingBranch_after hh hr).2, isInterestingContext_visited, ← hzero]
  split
  next hfirst => rw [mem_insertVisited, and_iff_left hfirst, or_comm]
  next hlater => rw [or_iff_left fun h => hlater h.2]

/-- A call of a run is the first, or a call of the run that goes on after the first. -/
theorem trail_cases (h : s.trail T file calls = before ++ hit :: after) :
    ∃ pc taken calls' x interesting s' file', T.hashPc pc taken = some x ∧
      s.isInterestingBranch T pc taken file = some (interesting, s', file') ∧
      let first : Hit :=
        { index := s.getIndex x, hash := x, bits := s.virgin_map_ (s.getIndex x)
          consulted := consulted T ((s.virgin_map_ (s.getIndex x)).setWidth 64)
          entered := s'.visited_.filter (· ∉ s.visited_) }
      (before = [] ∧ hit = first ∨
        ∃ before', before = first :: before' ∧
          s'.trail T file' calls' = before' ++ hit :: after) := by
  cases calls with
  | nil => simp [trail] at h
  | cons call calls =>
      obtain ⟨pc, taken⟩ := call
      rw [trail] at h
      split at h
      next x interesting s' file' hx hr =>
        refine ⟨pc, taken, calls, x, interesting, s', file', hx, hr, ?_⟩
        cases before with
        | nil => exact .inl ⟨rfl, (List.cons.inj h).1.symm⟩
        | cons first before =>
            obtain ⟨rfl, hrest⟩ := List.cons.inj h
            exact .inr ⟨before, rfl, hrest⟩
      next => simp at h

/-- The counts that the calls of a run meet. -/
theorem trail_bits (h : s.trail T file calls = before ++ hit :: after) :
    hit.consulted = consulted T (hit.bits.setWidth 64) ∧
      hit.bits =
        s.virgin_map_ hit.index + BitVec.ofNat 8 ((before.map Hit.index).count hit.index) := by
  induction before generalizing s file calls with
  | nil =>
      obtain ⟨_, _, _, x, _, s', _, _, _, ⟨_, rfl⟩ | ⟨_, hcons, _⟩⟩ := trail_cases h
      · simp
      · simp at hcons
  | cons first before ih =>
      obtain ⟨pc, taken, calls', x, _, s', file', hx, hr, ⟨hnil, _⟩ | ⟨before', hcons, hrest⟩⟩ :=
        trail_cases h
      · simp at hnil
      · obtain ⟨rfl, rfl⟩ := List.cons.inj hcons
        obtain ⟨hconsulted, hbits⟩ := ih hrest
        obtain ⟨x', hx', ha⟩ := isInterestingBranch_answered hr
        obtain rfl : x' = x := Option.some.inj (hx'.symm.trans hx)
        refine ⟨hconsulted, ?_⟩
        rw [hbits, ha.virgin, List.map_cons, List.count_cons]
        by_cases hi : hit.index = s.getIndex x'
        · simp only [hi, Function.update_self, beq_self_eq_true, if_true]
          rw [Nat.add_comm _ 1, BitVec.ofNat_add, BitVec.add_assoc]
          rfl
        · simp [hi, Ne.symm hi]

/-- What a run has put into `visited_` before one of its calls, and what the call adds. -/
theorem trail_entered (h : s.trail T file calls = before ++ hit :: after) (x : Addr) :
    x ∈ hit.entered ↔ x = hit.hash ∧ T.context_sensitive = true ∧ hit.bits = 0 ∧
      x ∉ s.visited_ ∧ x ∉ before.flatMap Hit.entered := by
  induction before generalizing s file calls with
  | nil =>
      obtain ⟨_, _, _, y, _, s', _, hy, hr, ⟨_, rfl⟩ | ⟨_, hcons, _⟩⟩ := trail_cases h
      · simp only [List.mem_filter, mem_visited hy hr, decide_not, Bool.not_eq_true',
          decide_eq_false_iff_not, List.flatMap_nil, List.not_mem_nil, not_false_eq_true,
          and_true]
        tauto
      · simp at hcons
  | cons first before ih =>
      obtain ⟨pc, taken, calls', y, _, s', file', hy, hr, ⟨hnil, _⟩ | ⟨before', hcons, hrest⟩⟩ :=
        trail_cases h
      · simp at hnil
      · obtain ⟨rfl, rfl⟩ := List.cons.inj hcons
        rw [ih hrest]
        simp only [List.flatMap_cons, List.mem_append, List.mem_filter, mem_visited hy hr,
          decide_not, Bool.not_eq_true', decide_eq_false_iff_not]
        tauto

/-! ### The schedule -/

theorem isPowerOfTwoOrZero_iff (x : Addr) :
    isPowerOfTwoOrZero x = true ↔ Bits.Sampled x.toNat := by
  rw [isPowerOfTwoOrZero, beq_iff_eq, Bits.and_sub_one_eq_zero_iff]

section

variable {path : String} (hT : T.context_sensitive = true)
  (h : (new path file).trail T file calls = before ++ hit :: after)

include h

/-- In a run from the start the count is the number of the earlier calls, in a byte. -/
theorem trail_bits_new :
    hit.bits.toNat = (before.map Hit.index).count hit.index % 2 ^ 8 := by
  have hzero : (new path file).virgin_map_ hit.index = 0 := rfl
  rw [(trail_bits h).2, hzero, BitVec.toNat_add, BitVec.toNat_ofNat]
  simp

include hT

theorem trail_consulted :
    hit.consulted = true ↔
      Bits.Sampled ((before.map Hit.index).count hit.index % 2 ^ 8) := by
  rw [(trail_bits h).1, consulted, hT, Bool.true_and, isPowerOfTwoOrZero_iff,
    BitVec.toNat_setWidth, Nat.mod_eq_of_lt (Nat.lt_of_lt_of_le (BitVec.isLt _) (by decide)),
    trail_bits_new h]

theorem trail_entered_new :
    hit.entered ≠ [] ↔ (before.map Hit.index).count hit.index % 2 ^ 8 = 0 ∧
      hit.hash ∉ before.flatMap Hit.entered := by
  have hbits : hit.bits = 0 ↔ (before.map Hit.index).count hit.index % 2 ^ 8 = 0 := by
    rw [← trail_bits_new h, ← BitVec.toNat_inj]
    rfl
  have hnone : hit.hash ∉ (new path file).visited_ := List.not_mem_nil
  rw [← hbits]
  constructor
  · intro hne
    obtain ⟨x, hx⟩ := List.exists_mem_of_ne_nil _ hne
    obtain ⟨rfl, _, hfirst, _, hfresh⟩ := (trail_entered h x).mp hx
    exact ⟨hfirst, hfresh⟩
  · rintro ⟨hfirst, hfresh⟩
    exact List.ne_nil_of_mem
      ((trail_entered h hit.hash).mpr ⟨rfl, hT, hfirst, hnone, hfresh⟩)

end

/-- The looks at the context map that an index has cost. -/
def checks (hits : List Hit) (idx : Fin kMapSize) : Nat :=
  hits.countP fun hit => hit.index = idx && hit.consulted

theorem checks_eq_count {p : Nat → Prop} [DecidablePred p] {hits : List Hit}
    (h : ∀ before hit after, hits = before ++ hit :: after →
      (hit.consulted = true ↔ p ((before.map Hit.index).count hit.index)))
    (idx : Fin kMapSize) : checks hits idx = Nat.count p ((hits.map Hit.index).count idx) := by
  induction hits using List.reverseRecOn with
  | nil => rfl
  | append_singleton hits hit ih =>
      have hlast := h hits hit [] rfl
      have hbefore := ih fun before hit' after heq => h before hit' (after ++ [hit]) (by simp [heq])
      rw [checks, List.countP_append, List.countP_singleton, List.map_append, List.count_append]
      rw [checks] at hbefore
      by_cases hi : hit.index = idx
      · subst hi
        simp [hbefore, Nat.count_succ, ← hlast]
      · simp [hbefore, hi]

/-- **The context map is sampled by a byte.** A call with `n` earlier ones of its edge
follows the schedule exactly unless `n` has wrapped to a sampled count without being one,
and keeps the first hit's privilege unless `n` has wrapped to 0 with a new hash. An edge
executed `k` times costs a logarithm of `k` up to `k = 257`, and nine looks in every 256
calls after that. -/
theorem trail_consulted_iff (T : Tracer) (hT : T.context_sensitive = true) (path : String)
    (file : File) (calls : List (Addr × Bool)) :
    let hits := (new path file).trail T file calls
    (∀ before hit after, hits = before ++ hit :: after →
      let n := (before.map Hit.index).count hit.index
      ((hit.consulted = true ↔ Bits.Sampled n) ↔
          (Bits.Sampled (n % 2 ^ 8) → Bits.Sampled n)) ∧
        ((hit.entered ≠ [] → n = 0) ↔
          (n % 2 ^ 8 = 0 → n = 0 ∨ hit.hash ∈ before.flatMap Hit.entered))) ∧
      ∀ idx, let k := (hits.map Hit.index).count idx
        checks hits idx = Nat.count (fun n => Bits.Sampled (n % 2 ^ 8)) k ∧
          (k ≤ 2 ^ 8 + 1 → checks hits idx ≤ Nat.clog 2 k + 1) ∧
          9 * (k / 2 ^ 8) ≤ checks hits idx := by
  intro hits
  constructor
  · intro before hit after hsplit n
    rw [trail_consulted hT hsplit, trail_entered_new hT hsplit]
    refine ⟨⟨fun h => h.mp, fun h => ⟨h, fun hn => hn.mod_two_pow 8⟩⟩, ?_⟩
    tauto
  · intro idx k
    have hchecks : checks hits idx = Nat.count (fun n => Bits.Sampled (n % 2 ^ 8)) k :=
      checks_eq_count (fun _ _ _ hsplit => trail_consulted hT hsplit) idx
    refine ⟨hchecks, fun hk => ?_, ?_⟩
    · have hmono : Nat.count (fun n => Bits.Sampled (n % 2 ^ 8)) k ≤ Nat.count Bits.Sampled k := by
        refine Nat.count_mono_left fun n hn hsampled => ?_
        -- the count wraps to 0 for the last call only, and 256 is a power of two
        rcases Nat.lt_or_ge n (2 ^ 8) with hlt | hge
        · rwa [Nat.mod_eq_of_lt hlt] at hsampled
        · exact .inr ⟨8, by omega⟩
      exact hchecks ▸ hmono.trans (Bits.count_sampled_le k)
    · have hround : Nat.count Bits.Sampled (2 ^ 8) = 9 := by decide +kernel
      have hrounds := Bits.count_wrapped Bits.Sampled (2 ^ 8) (k / 2 ^ 8)
      rw [hround, Nat.mul_comm _ 9] at hrounds
      rw [hchecks, ← hrounds]
      exact Nat.count_monotone _ (Nat.mul_div_le k (2 ^ 8))

/-- A run of three calls of one branch. -/
theorem trail_consulted_loop :
    let hits := (new "" none).trail Campaign.oneImage none (List.replicate 3 (0x400010, true))
    ∀ before hit after, hits = before ++ hit :: after →
      let n := (before.map Hit.index).count hit.index
      ((hit.consulted = true ↔ Bits.Sampled n) ↔
        (Bits.Sampled (n % 2 ^ 8) → Bits.Sampled n)) :=
  fun before hit after h =>
    ((trail_consulted_iff Campaign.oneImage rfl "" none _).1 before hit after h).1

/-! ### A long loop -/

theorem isInterestingBranch_isSome {img : Image} (himg : T.image pc = some img)
    (s : AflTraceMap) (taken : Bool) (file : File) :
    ∃ found s' file', s.isInterestingBranch T pc taken file = some (found, s', file') := by
  have hhash (b : Bool) : ∃ h, T.hashPc pc b = some h := by
    simp [Tracer.hashPc, himg]
  obtain ⟨h, hh⟩ := hhash taken
  obtain ⟨inv_h, hinv⟩ := hhash !taken
  unfold isInterestingBranch
  simp only [hh, hinv, Option.bind_eq_bind, Option.bind_some]
  split
  · exact ⟨_, _, _, rfl⟩
  · split <;> exact ⟨_, _, _, rfl⟩

theorem trail_cons {h : Addr} (hh : T.hashPc pc taken = some h)
    (hr : s.isInterestingBranch T pc taken file = some (interesting, s', file'))
    (calls : List (Addr × Bool)) :
    ∃ first : Hit, first.index = s.getIndex h ∧
      s.trail T file ((pc, taken) :: calls) = first :: s'.trail T file' calls := by
  rw [trail, hh, hr]
  exact ⟨_, rfl, rfl⟩

/-- From the second call on a loop hits one edge. -/
theorem trail_loop {img : Image} {h : Addr} (himg : T.image pc = some img)
    (hh : T.hashPc pc taken = some h) (hs : s.prev_loc_ = h) (file : File) (k : Nat) :
    (s.trail T file (List.replicate k (pc, taken))).length = k ∧
      ∀ hit ∈ s.trail T file (List.replicate k (pc, taken)),
        hit.index = TraceMap.index (h >>> 1 ^^^ h).toNat := by
  induction k generalizing s file with
  | zero => exact ⟨rfl, by simp [trail]⟩
  | succ k ih =>
      obtain ⟨found, s', file', hr⟩ := isInterestingBranch_isSome himg s taken file
      obtain ⟨hlength, hindex⟩ := ih (isInterestingBranch_after hh hr).1 file'
      simp only [List.replicate_succ, trail, hh, hr, List.length_cons, hlength, List.mem_cons,
        true_and]
      rintro hit (rfl | hit_mem)
      · rw [getIndex, hs]
      · exact hindex hit hit_mem

/-- The last of 259 calls of one branch: its edge has been hit 257 times, and the count is
back at 1. -/
theorem trail_wraps :
    ¬ ∀ (T : Tracer) (path : String) (file : File) (calls : List (Addr × Bool)),
      T.context_sensitive = true → ∀ before hit after,
        (new path file).trail T file calls = before ++ hit :: after →
          (hit.consulted = true ↔
            Bits.Sampled ((before.map Hit.index).count hit.index)) := by
  intro hclaim
  obtain ⟨h, hh⟩ : ∃ h, Campaign.oneImage.hashPc 0x400010 true = some h := ⟨_, rfl⟩
  have himg : Campaign.oneImage.image 0x400010 = some { lowAddress := 0x400000, id := 1 } := rfl
  obtain ⟨found, s, file, hr⟩ := isInterestingBranch_isSome himg (new "" none) true none
  have hloop := trail_loop himg hh (isInterestingBranch_after hh hr).1 file 258
  obtain ⟨first, hfirst, htrail⟩ := trail_cons hh hr (List.replicate 258 (0x400010, true))
  rw [← List.replicate_succ] at htrail
  generalize s.trail Campaign.oneImage file _ = hits at hloop htrail
  obtain ⟨hlength, hindex⟩ := hloop
  obtain ⟨before, hit, rfl⟩ : ∃ before hit, hits = before ++ [hit] :=
    ⟨_, _, (List.dropLast_append_getLast (List.ne_nil_of_length_pos (by omega))).symm⟩
  have hbefore : before.length = 257 := by simpa using hlength
  have hcount : ((first :: before).map Hit.index).count hit.index = 257 := by
    have hsame : (before.map Hit.index).count hit.index = (before.map Hit.index).length := by
      rw [List.count_eq_length]
      intro i hi
      obtain ⟨hit', hmem, rfl⟩ := List.mem_map.mp hi
      rw [hindex hit (by simp), hindex hit' (by simp [hmem])]
    have hother : first.index ≠ hit.index := by
      rw [hfirst, hindex hit (by simp)]
      cases hh
      decide +kernel
    rw [List.map_cons, List.count_cons_of_ne hother, hsame, List.length_map, hbefore]
  have hlast : (new "" none).trail Campaign.oneImage none (List.replicate 259 (0x400010, true)) =
      (first :: before) ++ hit :: [] := htrail
  have hconsulted := trail_consulted rfl hlast
  have hschedule := hclaim Campaign.oneImage "" none _ rfl (first :: before) hit [] hlast
  rw [hcount] at hconsulted hschedule
  exact absurd (hschedule.mp (hconsulted.mpr (by decide))) (by decide +kernel)

end AflTraceMap

end Qsym
