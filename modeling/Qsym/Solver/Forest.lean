import Mathlib.Data.Finset.Sort
import Qsym.Components.Linked

/-!
# Qsym.Solver.Forest

`DependencyForest`, the solver's record of constraints by the input bytes they
mention. Entry `i` of the forest points to the tree of byte `i`; trees are shared,
so the model keeps them in a list of their own and points to them by position.

`Sorted` is what holds of the record after any sequence of calls: a tree is pointed
to by exactly the bytes of its nodes, and holds exactly the nodes added that
mention one of them. Following one `addNode`, the nodes of the trees merged so far
do not yet account for the bytes of the new node, so the invariant of the loop
(`Linking`) carries these bytes apart.
-/

namespace Qsym

open Components

/-- `DependencyTree<T>` -/
structure DependencyTree (T : Type) where
  nodes : List T
  deps : Finset Nat

/-- `DependencyForest<T>`: the vector of shared pointers, and the trees allocated. -/
structure DependencyForest (T : Type) where
  forest : List (Option Nat)
  trees : List (DependencyTree T)

namespace DependencyTree

variable {T : Type}

/-- `std::make_shared<DependencyTree<T>>()` -/
def empty : DependencyTree T :=
  ⟨[], ∅⟩

/-- `DependencyTree::addNode` -/
def addNode (dependencies : T → Finset Nat) (tree : DependencyTree T) (node : T) :
    DependencyTree T :=
  { nodes := tree.nodes ++ [node], deps := tree.deps ∪ dependencies node }

/-- `DependencyTree::merge` -/
def merge (tree other : DependencyTree T) : DependencyTree T :=
  { nodes := tree.nodes ++ other.nodes, deps := tree.deps ∪ other.deps }

end DependencyTree

namespace DependencyForest

variable {T : Type}

def empty : DependencyForest T :=
  ⟨[], []⟩

/-- The pointer at `index`; `none` for `NULL` and outside the vector. -/
def owner (F : DependencyForest T) (index : Nat) : Option Nat :=
  (F.forest[index]?).join

/-- The tree a pointer leads to. -/
def tree (F : DependencyForest T) (t : Nat) : DependencyTree T :=
  F.trees.getD t .empty

/-- `forest_[index] = tree` -/
def point (F : DependencyForest T) (index t : Nat) : DependencyForest T :=
  { F with forest := F.forest.set index (some t) }

/-- `forest_.resize(index + 1)` when the vector is shorter. -/
def grow (F : DependencyForest T) (index : Nat) : DependencyForest T :=
  { F with forest := F.forest ++ List.replicate (index + 1 - F.forest.length) none }

/-- `DependencyForest::find` -/
def find (F : DependencyForest T) (index : Nat) : Nat × DependencyForest T :=
  let F := F.grow index
  match F.owner index with
  | some t => (t, F)
  | none =>
      (F.trees.length, { forest := F.forest.set index (some F.trees.length)
                         trees := F.trees ++ [.empty] })

/-- `tree->merge(*other_tree)`, and every reference to the other tree is updated. -/
def merge (F : DependencyForest T) (t other : Nat) : DependencyForest T :=
  let otherTree := F.tree other
  let F := { F with trees := F.trees.set t ((F.tree t).merge otherTree) }
  (otherTree.deps.sort (· ≤ ·)).foldl (fun F index => F.point index t) F

/-- One round of the loop of `addNode`. -/
def link (s : Option Nat × DependencyForest T) (index : Nat) : Option Nat × DependencyForest T :=
  let (other, F) := s.2.find index
  match s.1 with
  | none => (some other, F.point index other)
  | some t =>
      let F := if t = other then F else F.merge t other
      (some t, F.point index t)

variable (dependencies : T → Finset Nat)

/-- `DependencyForest::addNode`. Without a dependency there is no tree to add to, and
the source dereferences a null pointer. -/
def addNode (F : DependencyForest T) (node : T) : Option (DependencyForest T) :=
  match ((dependencies node).sort (· ≤ ·)).foldl link (none, F) with
  | (none, _) => none
  | (some t, F) =>
      some { F with trees := F.trees.set t ((F.tree t).addNode dependencies node) }

/-! ### What the operations do to pointers and trees -/

section Operations

variable {F : DependencyForest T} {i j t u : Nat}

theorem owner_point (hi : i < F.forest.length) :
    (F.point i t).owner j = if j = i then some t else F.owner j := by
  simp only [owner, point, List.getElem?_set]
  by_cases h : i = j
  · subst h
    simp [hi]
  · simp [h, Ne.symm h]

theorem lt_length_of_owner (h : F.owner i = some t) : i < F.forest.length := by
  by_contra hge
  simp [owner, List.getElem?_eq_none (Nat.not_lt.1 hge)] at h

theorem owner_grow : (F.grow i).owner j = F.owner j := by
  simp only [owner, grow, List.getElem?_append]
  split
  next => rfl
  next h =>
      rw [List.getElem?_eq_none (Nat.not_lt.1 h), List.getElem?_replicate]
      split <;> rfl

theorem lt_length_grow : i < (F.grow i).forest.length := by
  simp only [grow, List.length_append, List.length_replicate]
  omega

/-- The two ways of `find`. -/
theorem find_cases (F : DependencyForest T) (i : Nat) :
    (∃ t, F.owner i = some t ∧ F.find i = (t, F.grow i)) ∨
      (F.owner i = none ∧ F.find i = (F.trees.length,
        { (F.grow i).point i F.trees.length with trees := F.trees ++ [.empty] })) := by
  cases h : F.owner i with
  | some t =>
      have hg : (F.grow i).owner i = some t := owner_grow.trans h
      exact .inl ⟨t, rfl, by simp [find, hg]⟩
  | none =>
      have hg : (F.grow i).owner i = none := owner_grow.trans h
      exact .inr ⟨rfl, by simp only [find, hg]; rfl⟩

theorem owner_find : (F.find i).2.owner j = if j = i then some (F.find i).1 else F.owner j := by
  obtain ⟨t, ht, hf⟩ | ⟨hn, hf⟩ := F.find_cases i
  · rw [hf, owner_grow]
    split
    next h => rw [h, ht]
    next => rfl
  · rw [hf]
    exact (owner_point lt_length_grow).trans (by rw [owner_grow])

/-- A fresh tree is empty, so no tree changes. -/
theorem tree_find : (F.find i).2.tree t = F.tree t := by
  obtain ⟨u, -, hf⟩ | ⟨-, hf⟩ := F.find_cases i
  · rw [hf]
    rfl
  · rw [hf]
    simp only [tree, List.getD_eq_getElem?_getD, List.getElem?_append]
    split
    next => rfl
    next h =>
        rw [List.getElem?_eq_none (Nat.not_lt.1 h)]
        cases t - F.trees.length <;> rfl

theorem foldl_point {l : List Nat} (hl : ∀ k ∈ l, k < F.forest.length) :
    ((l.foldl (fun F k => F.point k t) F).owner j = if j ∈ l then some t else F.owner j) ∧
      (l.foldl (fun F k => F.point k t) F).trees = F.trees ∧
      (l.foldl (fun F k => F.point k t) F).forest.length = F.forest.length := by
  induction l generalizing F with
  | nil => simp
  | cons k l ih =>
      have hlen : (F.point k t).forest.length = F.forest.length := List.length_set
      obtain ⟨ho, ht, hn⟩ := ih (F := F.point k t) fun m hm => by
        rw [hlen]
        exact hl m (List.mem_cons_of_mem _ hm)
      refine ⟨?_, ht, hn.trans hlen⟩
      rw [List.foldl_cons, ho, owner_point (hl k List.mem_cons_self)]
      by_cases h : j = k <;> simp [h]

theorem mem_sort {S : Finset Nat} {k : Nat} : k ∈ S.sort (· ≤ ·) ↔ k ∈ S :=
  Finset.mem_sort (· ≤ ·)

theorem merge_spec (h : ∀ k ∈ (F.tree u).deps, k < F.forest.length) :
    ((F.merge t u).owner j = if j ∈ (F.tree u).deps then some t else F.owner j) ∧
      (F.merge t u).trees = F.trees.set t ((F.tree t).merge (F.tree u)) ∧
      (F.merge t u).forest.length = F.forest.length := by
  have hl : ∀ k ∈ (F.tree u).deps.sort (· ≤ ·), k < F.forest.length := fun k hk =>
    h k (mem_sort.1 hk)
  obtain ⟨ho, ht, hn⟩ := foldl_point (j := j) (t := t)
    (F := { F with trees := F.trees.set t ((F.tree t).merge (F.tree u)) }) hl
  refine ⟨ho.trans ?_, ht, hn⟩
  simp only [mem_sort]
  rfl

theorem tree_set {ts : List (DependencyTree T)} (ht : t < ts.length) {x : DependencyTree T} :
    (ts.set t x).getD u .empty = if u = t then x else ts.getD u .empty := by
  simp only [List.getD_eq_getElem?_getD, List.getElem?_set]
  by_cases h : t = u
  · subst h
    simp [ht]
  · simp [h, Ne.symm h]

end Operations

/-! ### The invariant -/

/-- The node mentions a byte of `S`. -/
def meets (S : Finset Nat) (node : T) : Bool :=
  decide (¬ Disjoint (dependencies node) S)

theorem meets_iff {S : Finset Nat} {node : T} :
    meets dependencies S node = true ↔ ∃ i ∈ dependencies node, i ∈ S := by
  simp [meets, Finset.not_disjoint_iff]

/-- The forest `F` holds the nodes `added`. The bytes of tree `t` are those of its
nodes and those of `extra t`, which are tied by `edges`. -/
structure Holds (F : DependencyForest T) (added : List T) (extra : Nat → Finset Nat)
    (edges : List (Finset Nat)) : Prop where
  live : ∀ {i t}, F.owner i = some t → t < F.trees.length
  fresh : ∀ {t}, F.trees.length ≤ t → extra t = ∅
  /-- A byte points to a tree it belongs to, or has an empty tree for itself. -/
  shared : ∀ {i t}, F.owner i = some t → i ∈ (F.tree t).deps ∪ extra t ∨
    ((F.tree t).deps ∪ extra t = ∅ ∧ (F.tree t).nodes = [] ∧ ∀ j, F.owner j = some t → j = i)
  /-- The bytes of a tree point to it. -/
  owned : ∀ {i j t}, F.owner i = some t → j ∈ (F.tree t).deps ∪ extra t → F.owner j = some t
  placed : ∀ {n i}, n ∈ added → i ∈ dependencies n →
    ∃ t, F.owner i = some t ∧ i ∈ (F.tree t).deps
  covered : ∀ {i j t}, F.owner i = some t → j ∈ (F.tree t).deps →
    ∃ n ∈ (F.tree t).nodes, j ∈ dependencies n
  within : ∀ {i t n}, F.owner i = some t → n ∈ (F.tree t).nodes →
    dependencies n ⊆ (F.tree t).deps
  held : ∀ {i t}, F.owner i = some t →
    (F.tree t).nodes.Perm (added.filter (meets dependencies (F.tree t).deps))
  linked : ∀ {i j k t}, F.owner i = some t → j ∈ (F.tree t).deps ∪ extra t →
    k ∈ (F.tree t).deps ∪ extra t → Linked edges j k

/-- What holds of the record between two calls. -/
abbrev Sorted (F : DependencyForest T) (added : List T) : Prop :=
  Holds dependencies F added (fun _ => ∅) (added.map dependencies)

variable {dependencies} {F : DependencyForest T} {added : List T} {extra : Nat → Finset Nat}
variable {edges : List (Finset Nat)}

theorem sorted_empty : Sorted dependencies (empty : DependencyForest T) [] where
  live h := by simp [owner, empty] at h
  fresh _ := rfl
  shared h := by simp [owner, empty] at h
  owned h := by simp [owner, empty] at h
  placed h := nomatch h
  covered h := by simp [owner, empty] at h
  within h := by simp [owner, empty] at h
  held h := by simp [owner, empty] at h
  linked h := by simp [owner, empty] at h

/-- Distinct trees have distinct bytes, so no node is in two of them. -/
theorem Holds.exclusive (h : Holds dependencies F added extra edges) {i j t u : Nat}
    (hi : F.owner i = some t) (hj : F.owner j = some u) (hne : t ≠ u) {n : T} (hn : n ∈ added)
    (ht : meets dependencies (F.tree t).deps n = true) :
    meets dependencies (F.tree u).deps n = false := by
  have hmem : n ∈ (F.tree t).nodes := (h.held hi).mem_iff.2 (List.mem_filter.2 ⟨hn, ht⟩)
  by_contra hu
  obtain ⟨k, hk, hku⟩ := (meets_iff dependencies).1 (by simpa using hu)
  have hkt : k ∈ (F.tree t).deps := h.within hi hmem hk
  have h₁ := h.owned hi (Finset.mem_union_left _ hkt)
  have h₂ := h.owned hj (Finset.mem_union_left _ hku)
  exact hne (Option.some.inj (h₁.symm.trans h₂))

/-- The invariant only looks at pointers and trees. -/
theorem Holds.congr (h : Holds dependencies F added extra edges) {F' : DependencyForest T}
    (ho : ∀ j, F'.owner j = F.owner j) (ht : F'.trees = F.trees) :
    Holds dependencies F' added extra edges := by
  have ht' : ∀ t, F'.tree t = F.tree t := fun t => by rw [tree, ht]; rfl
  constructor <;> simp only [ho, ht, ht']
  exacts [h.live, h.fresh, h.shared, h.owned, h.placed, h.covered, h.within, h.held, h.linked]

/-- A new empty tree for a byte that has none. -/
theorem Holds.allocate (h : Holds dependencies F added extra edges) {i : Nat}
    (hn : F.owner i = none) {F' : DependencyForest T}
    (ho : ∀ j, F'.owner j = if j = i then some F.trees.length else F.owner j)
    (ht : ∀ t, F'.tree t = F.tree t) (hlen : F'.trees.length = F.trees.length + 1) :
    Holds dependencies F' added extra edges := by
  have hempty : F.tree F.trees.length = .empty := by
    simp [tree, List.getD_eq_getElem?_getD]
  have hextra : extra F.trees.length = ∅ := h.fresh (Nat.le_refl _)
  -- an old pointer leads to an old tree
  have old : ∀ {j t}, F'.owner j = some t → j = i ∧ t = F.trees.length ∨
      j ≠ i ∧ F.owner j = some t ∧ t ≠ F.trees.length := by
    intro j t hj
    rw [ho] at hj
    split at hj
    next hji => exact .inl ⟨hji, (Option.some.inj hj).symm⟩
    next hji => exact .inr ⟨hji, hj, (h.live hj).ne⟩
  have keep : ∀ {j t}, F.owner j = some t → F'.owner j = some t := by
    intro j t hj
    rw [ho, if_neg (by rintro rfl; simp [hn] at hj)]
    exact hj
  constructor <;> simp only [ht, hlen]
  case live =>
    intro j t hj
    obtain ⟨-, rfl⟩ | ⟨-, hj, -⟩ := old hj
    · omega
    · exact Nat.lt_succ_of_lt (h.live hj)
  case fresh => exact fun {t} htl => h.fresh (by omega)
  case shared =>
    intro j t hj
    obtain ⟨rfl, rfl⟩ | ⟨-, hj, hne⟩ := old hj
    · refine .inr ⟨by rw [hempty, hextra]; rfl, by rw [hempty]; rfl, fun k hk => ?_⟩
      obtain ⟨rfl, -⟩ | ⟨-, -, hne⟩ := old hk
      · rfl
      · exact absurd rfl hne
    · refine (h.shared hj).imp_right fun ⟨h₁, h₂, h₃⟩ => ⟨h₁, h₂, fun k hk => ?_⟩
      obtain ⟨-, rfl⟩ | ⟨-, hk, -⟩ := old hk
      · exact absurd rfl hne
      · exact h₃ k hk
  case owned =>
    intro j k t hj hk
    obtain ⟨-, rfl⟩ | ⟨-, hj, -⟩ := old hj
    · rw [hempty, hextra] at hk
      simp [DependencyTree.empty] at hk
    · exact keep (h.owned hj hk)
  case placed =>
    intro n j hn hj
    obtain ⟨t, ht, hd⟩ := h.placed hn hj
    exact ⟨t, keep ht, hd⟩
  case covered =>
    intro j k t hj hk
    obtain ⟨-, rfl⟩ | ⟨-, hj, -⟩ := old hj
    · rw [hempty] at hk
      simp [DependencyTree.empty] at hk
    · exact h.covered hj hk
  case within =>
    intro j t n hj hn
    obtain ⟨-, rfl⟩ | ⟨-, hj, -⟩ := old hj
    · rw [hempty] at hn
      simp [DependencyTree.empty] at hn
    · exact h.within hj hn
  case held =>
    intro j t hj
    obtain ⟨-, rfl⟩ | ⟨-, hj, -⟩ := old hj
    · rw [hempty]
      simp [DependencyTree.empty, meets]
    · exact h.held hj
  case linked =>
    intro j a b t hj ha hb
    obtain ⟨-, rfl⟩ | ⟨-, hj, -⟩ := old hj
    · rw [hempty, hextra] at ha
      simp [DependencyTree.empty] at ha
    · exact h.linked hj ha hb

/-- Looking a byte up allocates at most an empty tree for it. -/
theorem Holds.find (h : Holds dependencies F added extra edges) (i : Nat) :
    Holds dependencies (F.find i).2 added extra edges := by
  obtain ⟨t, -, hf⟩ | ⟨hn, hf⟩ := F.find_cases i
  · exact h.congr (fun j => by rw [hf, owner_grow]) (by rw [hf]; rfl)
  · refine h.allocate hn (fun j => ?_) (fun t => tree_find) (by rw [hf]; simp)
    rw [owner_find, hf]

/-! ### The loop of `addNode` -/

/-- The bytes passed in the loop belong to tree `t`. -/
def pending (t : Nat) (passed : Finset Nat) (v : Nat) : Finset Nat :=
  if v = t then passed else ∅

theorem pending_self (t : Nat) (passed : Finset Nat) : pending t passed t = passed :=
  if_pos rfl

theorem pending_ne {t v : Nat} (h : v ≠ t) (passed : Finset Nat) : pending t passed v = ∅ :=
  if_neg h

/-- The first byte chooses its tree. -/
theorem Holds.start (h : Holds dependencies F added (fun _ => ∅) edges) {k u : Nat}
    (hk : F.owner k = some u) : Holds dependencies F added (pending u {k}) edges := by
  have hu : k ∈ (F.tree u).deps ∨ (F.tree u).deps = ∅ ∧ ∀ j, F.owner j = some u → j = k := by
    obtain hd | ⟨hd, -, huniq⟩ := h.shared hk
    · exact .inl (by simpa using hd)
    · exact .inr ⟨by simpa using hd, huniq⟩
  refine { h with fresh := ?_, shared := ?_, owned := ?_, linked := ?_ }
  · intro t ht
    exact pending_ne (by have := h.live hk; omega) _
  · intro i t hi
    by_cases htu : t = u
    · subst htu
      rw [pending_self]
      obtain hd | ⟨-, -, huniq⟩ := h.shared hi
      · exact .inl (Finset.mem_union_left _ (by simpa using hd))
      · exact .inl (by simp [huniq k hk])
    · rw [pending_ne htu]
      exact h.shared hi
  · intro i j t hi hj
    by_cases htu : t = u
    · subst htu
      rw [pending_self, Finset.mem_union, Finset.mem_singleton] at hj
      obtain hj | rfl := hj
      · exact h.owned hi (Finset.mem_union_left _ hj)
      · exact hk
    · rw [pending_ne htu] at hj
      exact h.owned hi hj
  · intro i a b t hi ha hb
    by_cases htu : t = u
    · subst htu
      rw [pending_self, Finset.mem_union, Finset.mem_singleton] at ha hb
      obtain hkd | ⟨hd, -⟩ := hu
      · have mem : ∀ {x}, x ∈ (F.tree t).deps ∨ x = k → x ∈ (F.tree t).deps ∪ ∅ := by
          rintro x (hx | rfl)
          · exact Finset.mem_union_left _ hx
          · exact Finset.mem_union_left _ hkd
        exact h.linked hi (mem ha) (mem hb)
      · rw [hd] at ha hb
        obtain rfl : a = k := by simpa using ha
        obtain rfl : b = a := by simpa using hb
        exact Linked.refl _ _
    · rw [pending_ne htu] at ha hb
      exact h.linked hi ha hb

section Join

variable {t : Nat} {passed : Finset Nat}

/-- A byte of the tree itself changes nothing. -/
theorem Holds.again (h : Holds dependencies F added (pending t passed) edges)
    (hp : passed.Nonempty) {k : Nat} (hk : F.owner k = some t) :
    Holds dependencies F added (pending t (insert k passed)) edges := by
  have hmem : k ∈ (F.tree t).deps ∪ passed := by
    obtain hd | ⟨hd, -⟩ := h.shared hk
    · rwa [pending_self] at hd
    · rw [pending_self, Finset.union_eq_empty] at hd
      exact absurd hd.2 hp.ne_empty
  have hsame : ∀ v, (F.tree v).deps ∪ pending t (insert k passed) v =
      (F.tree v).deps ∪ pending t passed v := by
    intro v
    by_cases hv : v = t
    · subst hv
      rw [pending_self, pending_self, Finset.union_insert, Finset.insert_eq_of_mem hmem]
    · rw [pending_ne hv, pending_ne hv]
  have hfresh : ∀ {v}, F.trees.length ≤ v → pending t (insert k passed) v = ∅ := fun {v} hv =>
    pending_ne (by have := h.live hk; omega) _
  refine { h with fresh := hfresh, shared := ?_, owned := ?_, linked := ?_ } <;> simp only [hsame]
  exacts [h.shared, h.owned, h.linked]

/-- The forest after the references to `u` were turned to `t` and its tree merged. -/
structure Merged (F F' : DependencyForest T) (t u : Nat) : Prop where
  owner : ∀ j, F'.owner j = if F.owner j = some u then some t else F.owner j
  tree : ∀ v, F'.tree v = if v = t then (F.tree t).merge (F.tree u) else F.tree v
  length : F'.trees.length = F.trees.length

namespace Merged

variable {F' : DependencyForest T} {j k u v x : Nat}

section

variable (hm : Merged F F' t u)
include hm

/-- Where a pointer of the merged forest came from. -/
theorem back (hj : F'.owner j = some v) :
    v = t ∧ (F.owner j = some u ∨ F.owner j = some t) ∨
      v ≠ t ∧ v ≠ u ∧ F.owner j = some v := by
  rw [hm.owner] at hj
  split at hj
  next hju => exact .inl ⟨(Option.some.inj hj).symm, .inl hju⟩
  next hju =>
      by_cases hv : v = t
      · exact .inl ⟨hv, .inr (hv ▸ hj)⟩
      · exact .inr ⟨hv, fun h => hju (h ▸ hj), hj⟩

theorem forth (hj : F.owner j = some v) : F'.owner j = some (if v = u then t else v) := by
  rw [hm.owner, hj]
  by_cases hv : v = u <;> simp [hv]

theorem owner_left (hj : F.owner j = some t) : F'.owner j = some t := by
  rw [hm.forth hj, ite_self]

theorem owner_right (hj : F.owner j = some u) : F'.owner j = some t := by
  rw [hm.forth hj, if_pos rfl]

theorem tree_self : F'.tree t = (F.tree t).merge (F.tree u) :=
  (hm.tree t).trans (if_pos rfl)

theorem tree_ne (hv : v ≠ t) : F'.tree v = F.tree v :=
  (hm.tree v).trans (if_neg hv)

theorem mem_bytes_iff : x ∈ (F'.tree t).deps ∪ pending t (insert k passed) t ↔
    x ∈ (F.tree t).deps ∪ pending t passed t ∨ x ∈ (F.tree u).deps ∨ x = k := by
  rw [hm.tree_self, pending_self, pending_self]
  simp only [DependencyTree.merge, Finset.mem_union, Finset.mem_insert]
  tauto

theorem bytes_ne (hv : v ≠ t) : (F'.tree v).deps ∪ pending t (insert k passed) v =
    (F.tree v).deps ∪ pending t passed v := by
  rw [hm.tree_ne hv, pending_ne hv, pending_ne hv]

end

/-! Tree `t` is that of a byte passed before, and `k` leads to another tree. -/

variable (h : Holds dependencies F added (pending t passed) edges) (hm : Merged F F' t u)
variable {p : Nat} (hp : p ∈ passed) (hpo : F.owner p = some t) (hk : F.owner k = some u)
variable (hne : u ≠ t)

include hp in
theorem mem_passed : p ∈ (F.tree t).deps ∪ pending t passed t := by
  rw [pending_self]
  exact Finset.mem_union_right _ hp

include hne in
theorem bytes_other : (F.tree u).deps ∪ pending t passed u = (F.tree u).deps := by
  rw [pending_ne hne, Finset.union_empty]

include h hm hpo in
theorem live (hj : F'.owner j = some v) : v < F'.trees.length := by
  rw [hm.length]
  obtain ⟨rfl, -⟩ | ⟨-, -, hj⟩ := hm.back hj
  · exact h.live hpo
  · exact h.live hj

include h hm hp hk hne in
theorem shared (hj : F'.owner j = some v) :
    j ∈ (F'.tree v).deps ∪ pending t (insert k passed) v ∨
      ((F'.tree v).deps ∪ pending t (insert k passed) v = ∅ ∧ (F'.tree v).nodes = [] ∧
        ∀ i, F'.owner i = some v → i = j) := by
  obtain ⟨rfl, hj | hj⟩ | ⟨hv, -, hj⟩ := hm.back hj
  · refine .inl (hm.mem_bytes_iff.2 (.inr ?_))
    obtain hd | ⟨-, -, huniq⟩ := h.shared hj
    · exact .inl (bytes_other hne ▸ hd)
    · exact .inr (huniq k hk).symm
  · obtain hd | ⟨hd, -⟩ := h.shared hj
    · exact .inl (hm.mem_bytes_iff.2 (.inl hd))
    · exact absurd (mem_passed hp) (hd ▸ Finset.notMem_empty p)
  · rw [hm.bytes_ne hv, hm.tree_ne hv]
    refine (h.shared hj).imp_right fun ⟨h₁, h₂, h₃⟩ => ⟨h₁, h₂, fun i hi => ?_⟩
    obtain ⟨rfl, -⟩ | ⟨-, -, hi⟩ := hm.back hi
    · exact absurd rfl hv
    · exact h₃ i hi

include h hm hpo hk hne in
theorem owned (hj : F'.owner j = some v)
    (hx : x ∈ (F'.tree v).deps ∪ pending t (insert k passed) v) : F'.owner x = some v := by
  obtain ⟨rfl, -⟩ | ⟨hv, hvu, hj⟩ := hm.back hj
  · obtain hx | hx | rfl := hm.mem_bytes_iff.1 hx
    · exact hm.owner_left (h.owned hpo hx)
    · exact hm.owner_right (h.owned hk ((bytes_other hne).symm ▸ hx))
    · exact hm.owner_right hk
  · rw [hm.bytes_ne hv] at hx
    simpa [hvu] using hm.forth (h.owned hj hx)

include h hm in
theorem placed {n : T} (hn : n ∈ added) (hj : j ∈ dependencies n) :
    ∃ w, F'.owner j = some w ∧ j ∈ (F'.tree w).deps := by
  obtain ⟨v, ho, hd⟩ := h.placed hn hj
  by_cases hvu : v = u
  · subst hvu
    exact ⟨t, hm.owner_right ho, by rw [hm.tree_self]; exact Finset.mem_union_right _ hd⟩
  by_cases hvt : v = t
  · subst hvt
    exact ⟨v, hm.owner_left ho, by rw [hm.tree_self]; exact Finset.mem_union_left _ hd⟩
  · exact ⟨v, by simpa [hvu] using hm.forth ho, by rwa [hm.tree_ne hvt]⟩

include h hm hpo hk in
theorem covered (hj : F'.owner j = some v) (hx : x ∈ (F'.tree v).deps) :
    ∃ n ∈ (F'.tree v).nodes, x ∈ dependencies n := by
  obtain ⟨rfl, -⟩ | ⟨hv, -, hj⟩ := hm.back hj
  · rw [hm.tree_self] at hx ⊢
    obtain hx | hx := Finset.mem_union.1 hx
    · obtain ⟨n, hn, hxn⟩ := h.covered hpo hx
      exact ⟨n, List.mem_append_left _ hn, hxn⟩
    · obtain ⟨n, hn, hxn⟩ := h.covered hk hx
      exact ⟨n, List.mem_append_right _ hn, hxn⟩
  · rw [hm.tree_ne hv] at hx ⊢
    exact h.covered hj hx

include h hm hpo hk in
theorem within {n : T} (hj : F'.owner j = some v) (hn : n ∈ (F'.tree v).nodes) :
    dependencies n ⊆ (F'.tree v).deps := by
  obtain ⟨rfl, -⟩ | ⟨hv, -, hj⟩ := hm.back hj
  · rw [hm.tree_self] at hn ⊢
    obtain hn | hn := List.mem_append.1 hn
    · exact (h.within hpo hn).trans Finset.subset_union_left
    · exact (h.within hk hn).trans Finset.subset_union_right
  · rw [hm.tree_ne hv] at hn ⊢
    exact h.within hj hn

include h hm hpo hk hne in
theorem held (hj : F'.owner j = some v) :
    (F'.tree v).nodes.Perm (added.filter (meets dependencies (F'.tree v).deps)) := by
  obtain ⟨rfl, -⟩ | ⟨hv, -, hj⟩ := hm.back hj
  · have hor (n : T) : (meets dependencies (F.tree v).deps n ||
        meets dependencies (F.tree u).deps n) = meets dependencies (F'.tree v).deps n := by
      rw [hm.tree_self]
      simp [meets, DependencyTree.merge, Finset.disjoint_union_right]
    rw [← List.filter_congr fun n _ => hor n, hm.tree_self]
    exact ((h.held hpo).append (h.held hk)).trans
      (filter_or_perm fun n hn => h.exclusive hpo hk (Ne.symm hne) hn)
  · rw [hm.tree_ne hv]
    exact h.held hj

variable {e : Finset Nat} (he : e ∈ edges) (hpe : passed ⊆ e) (hke : k ∈ e)

include h hm hp hpo hk hne he hpe hke in
/-- The byte `k` ties what was in the two trees. -/
theorem linked_passed (hx : x ∈ (F'.tree t).deps ∪ pending t (insert k passed) t) :
    Linked edges x p := by
  have hkp : Linked edges k p := .of_mem he hke (hpe hp)
  obtain hx | hx | rfl := hm.mem_bytes_iff.1 hx
  · exact h.linked hpo hx (mem_passed hp)
  · refine Linked.trans (h.linked hk ((bytes_other hne).symm ▸ hx) ?_) hkp
    obtain hd | ⟨hd, -⟩ := h.shared hk
    · exact hd
    · rw [bytes_other hne] at hd
      exact absurd hx (hd ▸ Finset.notMem_empty x)
  · exact hkp

include h hm hp hpo hk hne he hpe hke in
theorem linked {a b : Nat} (hj : F'.owner j = some v)
    (ha : a ∈ (F'.tree v).deps ∪ pending t (insert k passed) v)
    (hb : b ∈ (F'.tree v).deps ∪ pending t (insert k passed) v) : Linked edges a b := by
  obtain ⟨rfl, -⟩ | ⟨hv, -, hj⟩ := hm.back hj
  · have hlink := fun {x} => linked_passed (x := x) h hm hp hpo hk hne he hpe hke
    exact (hlink ha).trans (hlink hb).symm
  · rw [hm.bytes_ne hv] at ha hb
    exact h.linked hj ha hb

end Merged

/-- A byte of another tree brings that tree along. -/
theorem Holds.join (h : Holds dependencies F added (pending t passed) edges)
    (hp : passed.Nonempty) (hpt : ∀ i ∈ passed, F.owner i = some t) {k u : Nat}
    (hk : F.owner k = some u) (hne : u ≠ t) {e : Finset Nat} (he : e ∈ edges) (hpe : passed ⊆ e)
    (hke : k ∈ e) {F' : DependencyForest T} (hm : Merged F F' t u) :
    Holds dependencies F' added (pending t (insert k passed)) edges := by
  obtain ⟨p, hp⟩ := hp
  have hpo := hpt p hp
  have htree := h.live hpo
  have hlength := hm.length
  exact
    { live := Merged.live h hm hpo
      fresh := fun hv => pending_ne (by omega) _
      shared := Merged.shared h hm hp hk hne
      owned := Merged.owned h hm hpo hk hne
      placed := Merged.placed h hm
      covered := Merged.covered h hm hpo hk
      within := Merged.within h hm hpo hk
      held := Merged.held h hm hpo hk hne
      linked := Merged.linked h hm hp hpo hk hne he hpe hke }

/-- Turning the bytes of the other tree, and the byte that led to it, is a merge. -/
theorem Holds.merged (h : Holds dependencies F added (pending t passed) edges) {k u : Nat}
    (hk : F.owner k = some u) (hne : u ≠ t) (ht : t < F.trees.length) :
    Merged F ((F.merge t u).point k t) t u := by
  have hdu : (F.tree u).deps ∪ pending t passed u = (F.tree u).deps := by
    rw [pending_ne hne, Finset.union_empty]
  have huses : ∀ j, F.owner j = some u ↔ j = k ∨ j ∈ (F.tree u).deps := by
    intro j
    constructor
    · intro hj
      obtain hd | ⟨-, -, huniq⟩ := h.shared hj
      · exact .inr (hdu ▸ hd)
      · exact .inl (huniq k hk).symm
    · rintro (rfl | hj)
      · exact hk
      · exact h.owned hk (hdu.symm ▸ hj)
  have hlen : ∀ j ∈ (F.tree u).deps, j < F.forest.length := fun j hj =>
    lt_length_of_owner ((huses j).2 (.inr hj))
  obtain ⟨-, htrees, hforest⟩ := merge_spec (j := k) (t := t) hlen
  constructor
  · intro j
    rw [owner_point (by rw [hforest]; exact lt_length_of_owner hk), (merge_spec hlen).1]
    by_cases hj : F.owner j = some u
    · obtain rfl | hd := (huses j).1 hj
      · simp [hj]
      · simp [hj, hd]
    · have hjk : j ≠ k := fun h => hj ((huses j).2 (.inl h))
      have hd : j ∉ (F.tree u).deps := fun h => hj ((huses j).2 (.inr h))
      simp [hj, hjk, hd]
  · intro v
    change ((F.merge t u).trees).getD v .empty = _
    rw [htrees, tree_set ht]
    rfl
  · change (F.merge t u).trees.length = _
    rw [htrees, List.length_set]

end Join

/-- The loop of `addNode` has passed the bytes `passed` of the new node. -/
def Linking (dependencies : T → Finset Nat) (added : List T) (edges : List (Finset Nat))
    (s : Option Nat × DependencyForest T) (passed : Finset Nat) : Prop :=
  match s with
  | (none, F) => passed = ∅ ∧ Holds dependencies F added (fun _ => ∅) edges
  | (some t, F) => passed.Nonempty ∧ (∀ i ∈ passed, F.owner i = some t) ∧
      Holds dependencies F added (pending t passed) edges

section Loop

variable {s : Option Nat × DependencyForest T} {passed e : Finset Nat} {k : Nat}

/-- One round. -/
theorem Linking.link (h : Linking dependencies added edges s passed) (he : e ∈ edges)
    (hpe : passed ⊆ e) (hke : k ∈ e) :
    Linking dependencies added edges (link s k) (insert k passed) := by
  obtain ⟨_ | t, F⟩ := s
  · obtain ⟨rfl, h⟩ := h
    have hk : (F.find k).2.owner k = some (F.find k).1 := owner_find.trans (if_pos rfl)
    have hlen := lt_length_of_owner hk
    have hsame : ∀ j, ((F.find k).2.point k (F.find k).1).owner j = (F.find k).2.owner j := by
      intro j
      rw [owner_point hlen]
      split
      next hj => rw [hj, hk]
      next => rfl
    have hstep : DependencyForest.link (none, F) k =
        (some (F.find k).1, (F.find k).2.point k (F.find k).1) := rfl
    rw [hstep]
    refine ⟨Finset.insert_nonempty k ∅, fun i hi => ?_, ?_⟩
    · obtain rfl : i = k := by simpa using hi
      rw [hsame, hk]
    · exact ((h.find k).start hk).congr hsame rfl
  · obtain ⟨hp, hpt, h⟩ := h
    have hk : (F.find k).2.owner k = some (F.find k).1 := owner_find.trans (if_pos rfl)
    have hpt' : ∀ i ∈ passed, (F.find k).2.owner i = some t := by
      intro i hi
      rw [owner_find]
      split
      next hik =>
          subst hik
          obtain ⟨u, hu, hf⟩ | ⟨hn, -⟩ := F.find_cases i
          · rw [hf]
            exact hu.symm.trans (hpt i hi)
          · exact absurd (hn.symm.trans (hpt i hi)) nofun
      next => exact hpt i hi
    have hf := h.find k
    obtain ⟨p, hpp⟩ := id hp
    have ht : t < (F.find k).2.trees.length := hf.live (hpt' p hpp)
    by_cases hu : t = (F.find k).1
    · have hsame : ∀ j, ((F.find k).2.point k t).owner j = (F.find k).2.owner j := by
        intro j
        rw [owner_point (lt_length_of_owner hk)]
        split
        next hj => rw [hj, hk, hu]
        next => rfl
      have hstep : DependencyForest.link (some t, F) k = (some t, (F.find k).2.point k t) := by
        simp [DependencyForest.link, ← hu]
      rw [hstep]
      refine ⟨Finset.insert_nonempty k passed, fun i hi => ?_, ?_⟩
      · rw [hsame]
        obtain rfl | hi := Finset.mem_insert.1 hi
        · rw [hk, hu]
        · exact hpt' i hi
      · exact (hf.again hp (hk.trans (by rw [hu]))).congr hsame rfl
    · have hm := hf.merged hk (Ne.symm hu) ht
      have hstep : DependencyForest.link (some t, F) k =
          (some t, ((F.find k).2.merge t (F.find k).1).point k t) := by
        simp [DependencyForest.link, hu]
      rw [hstep]
      refine ⟨Finset.insert_nonempty k passed, fun i hi => ?_, ?_⟩
      · rw [hm.owner]
        obtain rfl | hi := Finset.mem_insert.1 hi
        · simp [hk]
        · simp [hpt' i hi]
      · exact hf.join hp hpt' hk (Ne.symm hu) he hpe hke hm

/-- The whole loop. -/
theorem Linking.foldl (he : e ∈ edges) {l : List Nat} (hl : ∀ k ∈ l, k ∈ e)
    (h : Linking dependencies added edges s passed) (hpe : passed ⊆ e) :
    Linking dependencies added edges (l.foldl DependencyForest.link s) (passed ∪ l.toFinset) := by
  induction l generalizing s passed with
  | nil => simpa using h
  | cons k l ih =>
      have hk : k ∈ e := hl k List.mem_cons_self
      have hstep := h.link he hpe hk
      have hrest := ih (fun m hm => hl m (List.mem_cons_of_mem _ hm)) hstep
        (Finset.insert_subset hk hpe)
      rwa [List.toFinset_cons, Finset.union_insert, ← Finset.insert_union]

end Loop

/-! ### The last step of `addNode` -/

/-- The forest after the new node was put into tree `t`. -/
structure Appended (dependencies : T → Finset Nat) (F F' : DependencyForest T) (t : Nat)
    (node : T) : Prop where
  owner : ∀ i, F'.owner i = F.owner i
  self : F'.tree t = (F.tree t).addNode dependencies node
  ne : ∀ v, v ≠ t → F'.tree v = F.tree v
  length : F'.trees.length = F.trees.length

theorem appended {t : Nat} {node : T} (ht : t < F.trees.length) : Appended dependencies F
    { F with trees := F.trees.set t ((F.tree t).addNode dependencies node) } t node where
  owner _ := rfl
  self := (tree_set ht).trans (if_pos rfl)
  ne _ hv := (tree_set ht).trans (if_neg hv)
  length := List.length_set

namespace Appended

variable {F' : DependencyForest T} {node n : T} {i j t v : Nat}
variable (h : Holds dependencies F added (pending t (dependencies node)) edges)
variable (ha : Appended dependencies F F' t node)
variable (hpt : ∀ i ∈ dependencies node, F.owner i = some t)

include ha in
theorem bytes (v : Nat) :
    (F'.tree v).deps ∪ ∅ = (F.tree v).deps ∪ pending t (dependencies node) v := by
  by_cases hv : v = t
  · subst hv
    rw [ha.self, pending_self, Finset.union_empty]
    rfl
  · rw [ha.ne v hv, pending_ne hv]

include h ha in
theorem shared (hp : (dependencies node).Nonempty) (hi : F.owner i = some v) :
    i ∈ (F.tree v).deps ∪ pending t (dependencies node) v ∨
      ((F.tree v).deps ∪ pending t (dependencies node) v = ∅ ∧ (F'.tree v).nodes = [] ∧
        ∀ j, F.owner j = some v → j = i) := by
  by_cases hv : v = t
  · subst hv
    refine (h.shared hi).imp_right fun ⟨hd, _⟩ => ?_
    rw [pending_self] at hd
    exact absurd (Finset.union_eq_empty.1 hd).2 hp.ne_empty
  · rw [ha.ne v hv]
    exact h.shared hi

include h ha hpt in
theorem placed (hn : n ∈ added ++ [node]) (hi : i ∈ dependencies n) :
    ∃ w, F.owner i = some w ∧ i ∈ (F'.tree w).deps := by
  obtain hn | hn := List.mem_append.1 hn
  · obtain ⟨v, hv, hd⟩ := h.placed hn hi
    refine ⟨v, hv, ?_⟩
    by_cases hvt : v = t
    · subst hvt
      rw [ha.self]
      exact Finset.mem_union_left _ hd
    · rwa [ha.ne v hvt]
  · obtain rfl := List.mem_singleton.1 hn
    exact ⟨t, hpt i hi, by rw [ha.self]; exact Finset.mem_union_right _ hi⟩

include h ha in
theorem covered (hi : F.owner i = some v) (hj : j ∈ (F'.tree v).deps) :
    ∃ n ∈ (F'.tree v).nodes, j ∈ dependencies n := by
  by_cases hv : v = t
  · subst hv
    rw [ha.self] at hj ⊢
    obtain hj | hj := Finset.mem_union.1 hj
    · obtain ⟨n, hn, hjn⟩ := h.covered hi hj
      exact ⟨n, List.mem_append_left _ hn, hjn⟩
    · exact ⟨node, List.mem_append_right _ (List.mem_singleton.2 rfl), hj⟩
  · rw [ha.ne v hv] at hj ⊢
    exact h.covered hi hj

include h ha in
theorem within (hi : F.owner i = some v) (hn : n ∈ (F'.tree v).nodes) :
    dependencies n ⊆ (F'.tree v).deps := by
  by_cases hv : v = t
  · subst hv
    rw [ha.self] at hn ⊢
    obtain hn | hn := List.mem_append.1 hn
    · exact (h.within hi hn).trans Finset.subset_union_left
    · obtain rfl := List.mem_singleton.1 hn
      exact Finset.subset_union_right
  · rw [ha.ne v hv] at hn ⊢
    exact h.within hi hn

include h ha hpt in
/-- An earlier node that shares a byte with the new one was in the tree already. -/
theorem meets_self (hn : n ∈ added) :
    meets dependencies (F'.tree t).deps n = meets dependencies (F.tree t).deps n := by
  rw [Bool.eq_iff_iff, meets_iff, meets_iff, ha.self]
  constructor
  · rintro ⟨j, hj, hjd⟩
    obtain hjd | hjd := Finset.mem_union.1 hjd
    · exact ⟨j, hj, hjd⟩
    · obtain ⟨w, hw, hd⟩ := h.placed hn hj
      obtain rfl : w = t := Option.some.inj (hw.symm.trans (hpt j hjd))
      exact ⟨j, hj, hd⟩
  · rintro ⟨j, hj, hjd⟩
    exact ⟨j, hj, Finset.mem_union_left _ hjd⟩

include h hpt in
/-- The new node is in no other tree. -/
theorem meets_ne (hi : F.owner i = some v) (hv : v ≠ t) :
    meets dependencies (F.tree v).deps node = false := by
  by_contra hm
  obtain ⟨j, hj, hjd⟩ := (meets_iff dependencies).1 (by simpa using hm)
  have hjv := h.owned hi (Finset.mem_union_left _ hjd)
  exact hv (Option.some.inj (hjv.symm.trans (hpt j hj)))

include h ha hpt in
theorem held (hp : (dependencies node).Nonempty) (hi : F.owner i = some v) :
    (F'.tree v).nodes.Perm
      ((added ++ [node]).filter (meets dependencies (F'.tree v).deps)) := by
  rw [List.filter_append]
  by_cases hv : v = t
  · subst hv
    have hnode : meets dependencies (F'.tree v).deps node = true := by
      obtain ⟨p, hp⟩ := hp
      rw [meets_iff, ha.self]
      exact ⟨p, hp, Finset.mem_union_right _ hp⟩
    rw [List.filter_congr fun n hn => meets_self h ha hpt hn, List.filter_singleton, hnode,
      cond_true, ha.self]
    exact (h.held hi).append_right [node]
  · rw [ha.ne v hv]
    simpa [meets_ne h hpt hi hv] using h.held hi

end Appended

/-- The node joins the tree of its bytes. -/
theorem Holds.append {node : T} {t : Nat} (hp : (dependencies node).Nonempty)
    (hpt : ∀ i ∈ dependencies node, F.owner i = some t)
    (h : Holds dependencies F added (pending t (dependencies node))
      ((added ++ [node]).map dependencies)) {F' : DependencyForest T}
    (ha : Appended dependencies F F' t node) : Sorted dependencies F' (added ++ [node]) := by
  constructor <;> simp only [ha.bytes, ha.owner, ha.length]
  case live => exact h.live
  case fresh => exact fun _ => trivial
  case shared => exact Appended.shared h ha hp
  case owned => exact h.owned
  case placed => exact Appended.placed h ha hpt
  case covered => exact Appended.covered h ha
  case within => exact Appended.within h ha
  case held => exact Appended.held h ha hpt hp
  case linked => exact h.linked

/-- `addNode` sorts the new node in; only a node without bytes has no tree to go to. -/
theorem Sorted.addNode (h : Sorted dependencies F added) {node : T}
    (hp : (dependencies node).Nonempty) :
    ∃ F', F.addNode dependencies node = some F' ∧ Sorted dependencies F' (added ++ [node]) := by
  have hmono : Holds dependencies F added (fun _ => ∅) ((added ++ [node]).map dependencies) :=
    { h with
      linked := fun hi hj hk => (h.linked hi hj hk).mono fun e he => by
        rw [List.map_append]
        exact List.mem_append_left _ he }
  have hstart : Linking dependencies added ((added ++ [node]).map dependencies) (none, F) ∅ :=
    ⟨rfl, hmono⟩
  have hloop := Linking.foldl (e := dependencies node) (l := (dependencies node).sort (· ≤ ·))
    (by simp) (fun k hk => mem_sort.1 hk) hstart (Finset.empty_subset _)
  rw [Finset.empty_union, Finset.sort_toFinset] at hloop
  unfold DependencyForest.addNode
  generalize ((dependencies node).sort (· ≤ ·)).foldl DependencyForest.link (none, F) = s at hloop ⊢
  obtain ⟨_ | t, F'⟩ := s
  · exact absurd hloop.1 hp.ne_empty
  · obtain ⟨⟨p, hp'⟩, hpt, hh⟩ := hloop
    exact ⟨_, rfl, hh.append hp hpt (appended (hh.live (hpt p hp')))⟩

/-! ### What the invariant says of `find` -/

section Find

variable {i j t u n : Nat}

/-- Two bytes lead to one tree exactly when a chain of nodes joins them. -/
theorem Sorted.owner_eq_iff (h : Sorted dependencies F added)
    (hi : ∃ n ∈ added, i ∈ dependencies n) (hj : ∃ n ∈ added, j ∈ dependencies n) :
    F.owner i = F.owner j ↔ Linked (added.map dependencies) i j := by
  obtain ⟨ni, hni, hi⟩ := hi
  obtain ⟨nj, hnj, hj⟩ := hj
  obtain ⟨t, hit, hid⟩ := h.placed hni hi
  obtain ⟨u, hju, hjd⟩ := h.placed hnj hj
  constructor
  · intro heq
    obtain rfl : t = u := Option.some.inj (hit.symm.trans (heq.trans hju))
    exact h.linked hit (Finset.mem_union_left _ hid) (Finset.mem_union_left _ hjd)
  · intro hl
    refine hl.eq_of_constant fun e he a ha b hb => ?_
    obtain ⟨n, hn, rfl⟩ := List.mem_map.1 he
    obtain ⟨v, hv, hd⟩ := h.placed hn ha
    have hmem : n ∈ (F.tree v).nodes := (h.held hv).mem_iff.2
      (List.mem_filter.2 ⟨hn, (meets_iff dependencies).2 ⟨a, ha, hd⟩⟩)
    rw [hv, h.owned hv (Finset.mem_union_left _ (h.within hv hmem hb))]

theorem owner_find_self : (F.find i).2.owner i = some (F.find i).1 :=
  owner_find.trans (if_pos rfl)

theorem find_fst (h : F.owner i = some t) : (F.find i).1 = t := by
  obtain ⟨u, hu, hf⟩ | ⟨hn, -⟩ := F.find_cases i
  · rw [hf]
    exact Option.some.inj (hu.symm.trans h)
  · exact absurd (hn.symm.trans h) nofun

/-- The bytes of a tree are those of the nodes it was built from. -/
theorem Sorted.occurs (h : Sorted dependencies F added) (ht : F.owner i = some t)
    (hj : j ∈ (F.tree t).deps) : ∃ n ∈ added, j ∈ dependencies n := by
  obtain ⟨n, hn, hjn⟩ := h.covered ht hj
  exact ⟨n, (List.mem_filter.1 ((h.held ht).mem_iff.1 hn)).1, hjn⟩

/-- The bytes of a tree are one component. -/
theorem Sorted.mem_deps_iff (h : Sorted dependencies F added) (ht : F.owner i = some t) :
    j ∈ (F.tree t).deps ↔
      (∃ n ∈ added, j ∈ dependencies n) ∧ Linked (added.map dependencies) i j := by
  constructor
  · intro hj
    refine ⟨h.occurs ht hj, ?_⟩
    obtain hi | ⟨hd, -⟩ := h.shared ht
    · exact h.linked ht hi (Finset.mem_union_left _ hj)
    · rw [Finset.union_empty] at hd
      rw [hd] at hj
      cases hj
  · rintro ⟨hj, hl⟩
    have hi : ∃ n ∈ added, i ∈ dependencies n := by
      obtain rfl | ⟨k, ⟨e, he, hi, -⟩, -⟩ := Relation.ReflTransGen.cases_head hl
      · exact hj
      · obtain ⟨m, hm, rfl⟩ := List.mem_map.1 he
        exact ⟨m, hm, hi⟩
    have hown := (h.owner_eq_iff hi hj).2 hl
    obtain ⟨m, hm, hj⟩ := hj
    obtain ⟨v, hv, hjd⟩ := h.placed hm hj
    obtain rfl : v = t := Option.some.inj (hv.symm.trans (hown.symm.trans ht))
    exact hjd

end Find

end DependencyForest

end Qsym
