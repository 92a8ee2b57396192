import Mathlib.Algebra.Order.Group.Nat
import Mathlib.Data.List.Perm.Subperm
import Mathlib.Data.List.Nodup
import Mathlib.Tactic.Common

/-!
# Reference counted nodes

A store has nodes that point to at most one other node each. A node counts the pointers
to it: those of other nodes, and those from outside of the store, the roots. It is freed
when the count drops to zero, and then the pointer that it has had itself is dropped.
-/

namespace RefCount

/-- A node: the node behind it, how many pointers there are to it, and its data. -/
structure Node (α : Type*) where
  next : Option ℕ
  ref : ℕ
  data : α
  deriving DecidableEq

/-- A store. A node is found by its place, and there is nothing where one has been freed. -/
abbrev Store (α : Type*) := List (Option (Node α))

variable {α : Type*}

/-- The node at a place. -/
def read (s : Store α) (i : ℕ) : Option (Node α) := s[i]?.join

/-- A new node with one pointer to it. -/
def alloc (s : Store α) (data : α) : Store α := s ++ [some ⟨none, 1, data⟩]

/-- Put other data into a node. -/
def setData (s : Store α) (i : ℕ) (data : α) : Store α :=
  s.modify i (Option.map fun n => { n with data := data })

/-- A number of new pointers to a node. -/
def retain (s : Store α) (i k : ℕ) : Store α :=
  s.modify i (Option.map fun n => { n with ref := n.ref + k })

/-- Drop a pointer. A node without any is freed, and so is its own pointer. -/
def dropPointer : ℕ → Store α → Option ℕ → Option (Store α)
  | _, s, none => some s
  | 0, _, some _ => none
  | fuel + 1, s, some i =>
    match read s i with
    | none => none
    | some n =>
      if n.ref = 0 then none
      else if n.ref = 1 then dropPointer fuel (s.set i none) n.next
      else some (s.set i (some { n with ref := n.ref - 1 }))

/-- Drop a pointer to a node. -/
def release (s : Store α) (i : ℕ) : Option (Store α) := dropPointer (s.length + 1) s (some i)

/-! ## Reading -/

/-- A node that is found is in the store. -/
theorem lt_length_of_read {s : Store α} {i : ℕ} {n : Node α} (h : read s i = some n) :
    i < s.length := by
  by_contra hge
  rw [read, List.getElem?_eq_none (by omega)] at h
  simp at h

/-- What has been put to a place is found there. -/
@[simp] theorem read_set_self {s : Store α} {i : ℕ} (h : i < s.length) (c : Option (Node α)) :
    read (s.set i c) i = c := by
  rw [read, List.getElem?_set_self h, Option.join_some]

/-- The other places stay as they are. -/
@[simp] theorem read_set_ne {s : Store α} {i j : ℕ} (h : i ≠ j) (c : Option (Node α)) :
    read (s.set i c) j = read s j := by
  rw [read, List.getElem?_set_ne h, read]

/-- The new node is behind the other ones. -/
@[simp] theorem read_alloc_self (s : Store α) (data : α) :
    read (alloc s data) s.length = some ⟨none, 1, data⟩ := by
  simp [read, alloc]

/-- A new node leaves the other ones alone. -/
theorem read_alloc_of_lt {s : Store α} {i : ℕ} (h : i < s.length) (data : α) :
    read (alloc s data) i = read s i := by
  rw [read, alloc, List.getElem?_append_left h, read]

/-- A new node takes one more place. -/
@[simp] theorem length_alloc (s : Store α) (data : α) : (alloc s data).length = s.length + 1 := by
  simp [alloc]

/-- A node that changes is replaced. -/
theorem modify_eq_set {s : Store α} {i : ℕ} {n : Node α} (h : read s i = some n)
    (f : Node α → Node α) : s.modify i (Option.map f) = s.set i (some (f n)) := by
  have hget : s[i]? = some (some n) := by
    rw [read] at h
    exact Option.join_eq_some_iff.mp h
  rw [List.modify_eq_set_getElem?, hget]
  rfl

/-- Other data replace the node. -/
theorem setData_eq_set {s : Store α} {i : ℕ} {n : Node α} (h : read s i = some n) (data : α) :
    setData s i data = s.set i (some { n with data := data }) := modify_eq_set h _

/-- New pointers replace the node. -/
theorem retain_eq_set {s : Store α} {i : ℕ} {n : Node α} (h : read s i = some n) (k : ℕ) :
    retain s i k = s.set i (some { n with ref := n.ref + k }) := modify_eq_set h _

/-- The node has the data that have been put into it. -/
theorem read_setData_self {s : Store α} {i : ℕ} {n : Node α} (h : read s i = some n) (data : α) :
    read (setData s i data) i = some { n with data := data } := by
  rw [setData_eq_set h, read_set_self (lt_length_of_read h)]

/-- The other nodes keep their data. -/
theorem read_setData_ne {s : Store α} {i j : ℕ} (h : i ≠ j) (data : α) :
    read (setData s i data) j = read s j := by
  rw [read, setData, List.getElem?_modify_ne _ _ h, read]

/-- The last data are the ones that stay. -/
theorem setData_setData {s : Store α} {i : ℕ} {n : Node α} (h : read s i = some n)
    (data data' : α) : setData (setData s i data) i data' = setData s i data' := by
  rw [setData_eq_set (read_setData_self h data), setData_eq_set h, List.set_set,
    setData_eq_set h]

/-- A new node with other data. -/
theorem setData_alloc (s : Store α) (data data' : α) :
    setData (alloc s data) s.length data' = alloc s data' := by
  rw [setData_eq_set (read_alloc_self s data), alloc, List.set_append_right _ _ (Nat.le_refl _),
    Nat.sub_self, List.set_cons_zero, alloc]

/-- The data that a node has anyway change nothing. -/
theorem setData_same {s : Store α} {i : ℕ} {n : Node α} (h : read s i = some n) :
    setData s i n.data = s := by
  have hget : s[i]? = some (some n) := by
    rw [read] at h
    exact Option.join_eq_some_iff.mp h
  obtain ⟨hlt, hget⟩ := List.getElem?_eq_some_iff.mp hget
  rw [setData_eq_set h]
  change s.set i (some n) = s
  rw [← hget, List.set_getElem_self]

/-! ## Counting -/

/-- The count of a node, and zero where there is none. -/
def refs (s : Store α) (i : ℕ) : ℕ := ((read s i).map Node.ref).getD 0

/-- A node points to a place. -/
def PointsTo (i : ℕ) (c : Option (Node α)) : Bool := c.bind Node.next == some i

/-- How many nodes point to a place. -/
def links (s : Store α) (i : ℕ) : ℕ := s.countP (PointsTo i)

/-- Every node counts the pointers to it right, and is there as long as there are any.
The roots are the pointers from outside, with repetitions. -/
structure Counted (s : Store α) (roots : List ℕ) : Prop where
  refs_eq : ∀ i, refs s i = roots.count i + links s i
  ref_pos : ∀ i n, read s i = some n → 0 < n.ref

/-- The count of a node is its field. -/
theorem refs_of_read {s : Store α} {i : ℕ} {n : Node α} (h : read s i = some n) :
    refs s i = n.ref := by
  simp [refs, h]

/-- Replacing a node does not change the counts of the other ones. -/
theorem refs_set_ne {s : Store α} {i j : ℕ} (h : i ≠ j) (c : Option (Node α)) :
    refs (s.set i c) j = refs s j := by
  rw [refs, read_set_ne h, refs]

/-- Replacing a node moves only its own pointer. -/
theorem links_set {s : Store α} {i : ℕ} {n : Node α} (h : read s i = some n)
    (c : Option (Node α)) (j : ℕ) :
    links (s.set i c) j + (if PointsTo j (some n) then 1 else 0) =
      links s j + (if PointsTo j c then 1 else 0) := by
  have hlt : i < s.length := lt_length_of_read h
  have hget : s[i] = some n := by
    rw [read, List.getElem?_eq_getElem hlt, Option.join_some] at h
    exact h
  have hpos : PointsTo j (some n) = true → 0 < s.countP (PointsTo j) := by
    intro hp
    exact List.countP_pos_iff.mpr ⟨s[i], List.getElem_mem hlt, by rw [hget]; exact hp⟩
  rw [links, links, List.countP_set hlt, hget]
  by_cases hp : PointsTo j (some n) = true
  · have := hpos hp
    simp only [hp, if_true]
    omega
  · simp [hp]

/-- A node that still points to the same place counts for it as before. -/
theorem links_set_of_next {s : Store α} {i : ℕ} {n n' : Node α} (h : read s i = some n)
    (hnext : n'.next = n.next) (j : ℕ) : links (s.set i (some n')) j = links s j := by
  have heq := links_set h (some n') j
  have hp : PointsTo j (some n') = PointsTo j (some n) := by simp [PointsTo, hnext]
  rw [hp] at heq
  exact Nat.add_right_cancel heq

section Counted

variable {s : Store α} {roots : List ℕ}

/-- The order of the roots does not matter. -/
theorem Counted.of_count {roots' : List ℕ} (h : Counted s roots)
    (heq : ∀ i, roots'.count i = roots.count i) : Counted s roots' :=
  ⟨fun i => by rw [h.refs_eq i, heq i], h.ref_pos⟩

/-- What has a count is a node. -/
theorem Counted.read_of_refs {i : ℕ} (h : 0 < refs s i) : ∃ n, read s i = some n := by
  cases hn : read s i with
  | none => simp [refs, hn] at h
  | some n => exact ⟨n, rfl⟩

/-- There is a node at every root. -/
theorem Counted.read_root (h : Counted s roots) {i : ℕ} (hi : i ∈ roots) :
    ∃ n, read s i = some n := by
  have hcount : 0 < roots.count i := List.count_pos_iff.mpr hi
  have := h.refs_eq i
  exact read_of_refs (by omega)

/-- There is a node behind every node that points to one. -/
theorem Counted.read_next (h : Counted s roots) {i j : ℕ} {n : Node α} (hn : read s i = some n)
    (hj : n.next = some j) : ∃ m, read s j = some m := by
  have hmem : some n ∈ s := by
    rw [read] at hn
    exact List.mem_of_getElem? (Option.join_eq_some_iff.mp hn)
  have hlinks : 0 < links s j := List.countP_pos_iff.mpr ⟨some n, hmem, by simp [PointsTo, hj]⟩
  have := h.refs_eq j
  exact read_of_refs (by omega)

/-- Nothing points behind the end of the store. -/
theorem Counted.fresh (h : Counted s roots) {i : ℕ} (hi : s.length ≤ i) :
    roots.count i = 0 ∧ links s i = 0 := by
  have hnone : refs s i = 0 := by simp [refs, read, List.getElem?_eq_none hi]
  have := h.refs_eq i
  omega

/-- A new node has its creator as the only root. -/
theorem Counted.alloc (h : Counted s roots) (data : α) :
    Counted (alloc s data) (s.length :: roots) := by
  have hlinks : ∀ i, links (RefCount.alloc s data) i = links s i := by
    intro i
    simp [links, RefCount.alloc, PointsTo]
  refine ⟨fun i => ?_, fun i n hn => ?_⟩
  · rw [hlinks i]
    rcases Nat.lt_trichotomy i s.length with hlt | rfl | hgt
    · rw [refs, read_alloc_of_lt hlt, ← refs, h.refs_eq i, List.count_cons_of_ne (by omega)]
    · have hfresh := h.fresh (Nat.le_refl s.length)
      rw [refs_of_read (read_alloc_self s data), List.count_cons_self, hfresh.1, hfresh.2]
    · have hfresh := h.fresh (Nat.le_of_lt hgt)
      have hnone : refs (RefCount.alloc s data) i = 0 := by
        simp [refs, read, List.getElem?_eq_none
          (show (RefCount.alloc s data).length ≤ i by simp; omega)]
      rw [hnone, List.count_cons_of_ne (by omega)]
      omega
  · by_cases hi : i < s.length
    · rw [read_alloc_of_lt hi] at hn
      exact h.ref_pos i n hn
    · have hlt := lt_length_of_read hn
      rw [length_alloc] at hlt
      obtain rfl : i = s.length := by omega
      rw [read_alloc_self, Option.some_inj] at hn
      rw [← hn]
      exact Nat.one_pos

/-- A node that keeps its pointer and counts the new roots. -/
theorem Counted.replace (h : Counted s roots) {i : ℕ} {n n' : Node α} {roots' : List ℕ}
    (hn : read s i = some n) (hnext : n'.next = n.next) (hpos : 0 < n'.ref)
    (hself : n'.ref + roots.count i = n.ref + roots'.count i)
    (hother : ∀ j, j ≠ i → roots'.count j = roots.count j) :
    Counted (s.set i (some n')) roots' := by
  have hlt := lt_length_of_read hn
  refine ⟨fun j => ?_, fun j m hm => ?_⟩
  · rw [links_set_of_next hn hnext]
    have hrefs := h.refs_eq j
    by_cases hj : j = i
    · subst hj
      rw [refs_of_read hn] at hrefs
      rw [refs_of_read (read_set_self hlt _)]
      omega
    · rw [refs_set_ne (Ne.symm hj), hrefs, hother j hj]
  · by_cases hj : j = i
    · subst hj
      rw [read_set_self hlt, Option.some_inj] at hm
      rw [← hm]
      exact hpos
    · rw [read_set_ne (Ne.symm hj)] at hm
      exact h.ref_pos j m hm

/-- Other data do not change who counts what. -/
theorem Counted.setData (h : Counted s roots) {i : ℕ} {n : Node α} (hn : read s i = some n)
    (data : α) : Counted (setData s i data) roots := by
  rw [setData_eq_set hn]
  exact h.replace hn rfl (h.ref_pos i n hn) rfl fun _ _ => rfl

/-- New pointers from outside are new roots. -/
theorem Counted.retain (h : Counted s roots) {i : ℕ} {n : Node α} (hn : read s i = some n)
    (k : ℕ) : Counted (retain s i k) (List.replicate k i ++ roots) := by
  rw [retain_eq_set hn]
  refine h.replace hn rfl ?_ ?_ fun j hj => ?_
  · exact Nat.add_pos_left (h.ref_pos i n hn) k
  · rw [List.count_append, List.count_replicate_self, Nat.add_assoc]
  · rw [List.count_append, List.count_replicate, if_neg (by simp [Ne.symm hj]), Nat.zero_add]

/-- The only pointer to a node is a root, and with the node its own pointer is one. -/
theorem Counted.free {i : ℕ} {n : Node α} (h : Counted s (i :: roots)) (hn : read s i = some n)
    (hone : n.ref = 1) : Counted (s.set i none) (n.next.toList ++ roots) := by
  have hlt := lt_length_of_read hn
  have hi := h.refs_eq i
  rw [refs_of_read hn, hone, List.count_cons_self] at hi
  have hcount : ∀ j, (n.next.toList ++ roots).count j =
      roots.count j + (if PointsTo j (some n) then 1 else 0) := by
    intro j
    cases hnext : n.next with
    | none => simp [PointsTo, hnext]
    | some k => simp [PointsTo, hnext, List.count_cons]
  refine ⟨fun j => ?_, fun j m hm => ?_⟩
  · have hlinks := links_set hn none j
    have hnone : PointsTo j (none : Option (Node α)) = false := rfl
    simp only [hnone, Bool.false_eq_true, if_false, Nat.add_zero] at hlinks
    rw [hcount j]
    by_cases hj : j = i
    · subst hj
      have hzero : refs (s.set j none) j = 0 := by simp [refs, hlt]
      rw [hzero]
      omega
    · have hrefs := h.refs_eq j
      rw [List.count_cons_of_ne (Ne.symm hj)] at hrefs
      rw [refs_set_ne (Ne.symm hj), hrefs]
      omega
  · by_cases hj : j = i
    · subst hj
      rw [read_set_self hlt] at hm
      cases hm
    · rw [read_set_ne (Ne.symm hj)] at hm
      exact h.ref_pos j m hm

/-- How many nodes there are. -/
def live (s : Store α) : ℕ := s.countP Option.isSome

/-- There is one node less after one has been freed. -/
theorem live_free {i : ℕ} {n : Node α} (hn : read s i = some n) :
    live (s.set i none) + 1 = live s := by
  have hlt := lt_length_of_read hn
  have hget : s[i] = some n := by
    rw [read, List.getElem?_eq_getElem hlt, Option.join_some] at hn
    exact hn
  have hpos : 0 < s.countP Option.isSome :=
    List.countP_pos_iff.mpr ⟨s[i], List.getElem_mem hlt, by rw [hget]; rfl⟩
  rw [live, live, List.countP_set hlt, hget]
  simp only [Option.isSome_some, Option.isSome_none, if_true, Bool.false_eq_true, if_false]
  omega

end Counted

/-! ## Frames -/

/-- A later store: of the nodes that there have been, those that are left point where they did,
and have the same data unless they are among the changed ones. The new nodes point to none. -/
structure Extends (changed : List ℕ) (s s' : Store α) : Prop where
  length_le : s.length ≤ s'.length
  kept : ∀ i < s.length, ∀ n', read s' i = some n' →
    ∃ n, read s i = some n ∧ n'.next = n.next ∧ (i ∉ changed → n'.data = n.data)
  unlinked : ∀ i, s.length ≤ i → ∀ n', read s' i = some n' → n'.next = none

section Extends

variable {changed : List ℕ} {s s' s'' : Store α}

/-- A store is a later one of itself. -/
theorem Extends.refl (s : Store α) : Extends changed s s where
  length_le := Nat.le_refl _
  kept _ _ n' h := ⟨n', h, rfl, fun _ => rfl⟩
  unlinked _ hi _ h := absurd (lt_length_of_read h) (by omega)

/-- A later store than a later one is a later one. -/
theorem Extends.trans (h : Extends changed s s') (h' : Extends changed s' s'') :
    Extends changed s s'' where
  length_le := h.length_le.trans h'.length_le
  kept i hi n'' hn'' := by
    obtain ⟨n', hn', hnext', hdata'⟩ := h'.kept i (hi.trans_le h.length_le) n'' hn''
    obtain ⟨n, hn, hnext, hdata⟩ := h.kept i hi n' hn'
    exact ⟨n, hn, hnext'.trans hnext, fun hc => (hdata' hc).trans (hdata hc)⟩
  unlinked i hi n'' hn'' := by
    by_cases hlt : i < s'.length
    · obtain ⟨n', hn', hnext', -⟩ := h'.kept i hlt n'' hn''
      rw [hnext', h.unlinked i hi n' hn']
    · exact h'.unlinked i (by omega) n'' hn''

/-- A new node makes a later store. -/
theorem Extends.alloc (h : Extends changed s s') (data : α) :
    Extends changed s (alloc s' data) where
  length_le := by
    rw [length_alloc]
    exact h.length_le.trans (Nat.le_succ _)
  kept i hi n hn := by
    rw [read_alloc_of_lt (hi.trans_le h.length_le)] at hn
    exact h.kept i hi n hn
  unlinked i hi n hn := by
    by_cases hlt : i < s'.length
    · rw [read_alloc_of_lt hlt] at hn
      exact h.unlinked i hi n hn
    · have hend := lt_length_of_read hn
      rw [length_alloc] at hend
      obtain rfl : i = s'.length := by omega
      rw [read_alloc_self, Option.some_inj] at hn
      rw [← hn]

/-- A node is freed, or replaced by one with the same pointer. -/
theorem Extends.set (h : Extends changed s s') {i : ℕ} {n : Node α} {c : Option (Node α)}
    (hn : read s' i = some n)
    (hc : ∀ n' ∈ c, n'.next = n.next ∧ (i < s.length → i ∉ changed → n'.data = n.data)) :
    Extends changed s (s'.set i c) := by
  have hlt := lt_length_of_read hn
  have hread : ∀ j m, read (s'.set i c) j = some m → ∃ m', read s' j = some m' ∧
      m.next = m'.next ∧ (j < s.length → j ∉ changed → m.data = m'.data) := by
    intro j m hm
    by_cases hj : j = i
    · subst hj
      rw [read_set_self hlt] at hm
      exact ⟨n, hn, hc m hm⟩
    · rw [read_set_ne (Ne.symm hj)] at hm
      exact ⟨m, hm, rfl, fun _ _ => rfl⟩
  refine ⟨by rw [List.length_set]; exact h.length_le, fun j hj m hm => ?_, fun j hj m hm => ?_⟩
  · obtain ⟨m', hm', hnext', hdata'⟩ := hread j m hm
    obtain ⟨m'', hm'', hnext'', hdata''⟩ := h.kept j hj m' hm'
    exact ⟨m'', hm'', hnext'.trans hnext'', fun hc => (hdata' hj hc).trans (hdata'' hc)⟩
  · obtain ⟨m', hm', hnext', -⟩ := hread j m hm
    rw [hnext', h.unlinked j hj m' hm']

/-- The data of a new node are free to change. -/
theorem Extends.setData (h : Extends changed s s') {i : ℕ} {n : Node α}
    (hn : read s' i = some n) (hi : i < s.length → i ∈ changed) (data : α) :
    Extends changed s (setData s' i data) := by
  rw [setData_eq_set hn]
  refine h.set hn fun n' hn' => ?_
  obtain rfl := Option.some_inj.mp hn'
  exact ⟨rfl, fun hlt hc => absurd (hi hlt) hc⟩

/-- New pointers to a node make a later store. -/
theorem Extends.retain (h : Extends changed s s') {i : ℕ} {n : Node α}
    (hn : read s' i = some n) (k : ℕ) : Extends changed s (retain s' i k) := by
  rw [retain_eq_set hn]
  refine h.set hn fun n' hn' => ?_
  obtain rfl := Option.some_inj.mp hn'
  exact ⟨rfl, fun _ _ => rfl⟩

/-- More nodes may be said to have changed. -/
theorem Extends.mono {changed' : List ℕ} (h : Extends changed s s') (hsub : changed ⊆ changed') :
    Extends changed' s s' :=
  ⟨h.length_le, fun i hi n' hn' =>
    let ⟨n, hn, hnext, hdata⟩ := h.kept i hi n' hn'
    ⟨n, hn, hnext, fun hi' => hdata fun hmem => hi' (hsub hmem)⟩, h.unlinked⟩

/-- The pointers to a new node are roots. -/
theorem Extends.refs_new {roots roots' : List ℕ} (h : Extends changed s s')
    (hs : Counted s roots) (hs' : Counted s' roots') {i : ℕ} (hi : s.length ≤ i) :
    refs s' i = roots'.count i := by
  have hlinks : links s' i = 0 := by
    rw [links, List.countP_eq_zero]
    intro c hc hp
    obtain ⟨m, rfl, hm⟩ := Option.bind_eq_some_iff.mp (eq_of_beq hp)
    obtain ⟨j, hj⟩ := List.mem_iff_getElem?.mp hc
    have hread : read s' j = some m := by rw [read, hj, Option.join_some]
    by_cases hlt : j < s.length
    · obtain ⟨m', hm', hnext, -⟩ := h.kept j hlt m hread
      obtain ⟨n', hn'⟩ := hs.read_next hm' (hnext.symm.trans hm)
      have := lt_length_of_read hn'
      omega
    · rw [h.unlinked j (by omega) m hread] at hm
      cases hm
  rw [hs'.refs_eq i, hlinks, Nat.add_zero]

/-- A new node that is left belongs to a root. -/
theorem Extends.mem_roots_of_new {roots roots' : List ℕ} (h : Extends changed s s')
    (hs : Counted s roots) (hs' : Counted s' roots') {i : ℕ} {n : Node α}
    (hi : s.length ≤ i) (hn : read s' i = some n) : i ∈ roots' := by
  have hrefs := h.refs_new hs hs' hi
  rw [refs_of_read hn] at hrefs
  have hpos := hs'.ref_pos i n hn
  exact List.count_pos_iff.mp (by omega)

end Extends

/-! ## Dropping a pointer -/

/-- Dropping a pointer frees what nothing points to any more, and changes only counts
otherwise. No node is freed twice, and the chain of the freed nodes ends. -/
theorem dropPointer_counted (changed : List ℕ) {s : Store α} {roots : List ℕ} {p : Option ℕ}
    {fuel : ℕ} (h : Counted s (p.toList ++ roots)) (hfuel : live s < fuel) :
    ∃ s', dropPointer fuel s p = some s' ∧ Counted s' roots ∧ Extends changed s s' := by
  induction fuel generalizing s p with
  | zero => omega
  | succ fuel ih =>
    cases p with
    | none => exact ⟨s, rfl, h, .refl s⟩
    | some i =>
      obtain ⟨n, hn⟩ := h.read_root (List.mem_append_left roots (List.mem_singleton_self i))
      have hpos := h.ref_pos i n hn
      rw [dropPointer, hn]
      simp only
      rw [if_neg (by omega)]
      by_cases hone : n.ref = 1
      · rw [if_pos hone]
        have hlive := live_free hn
        obtain ⟨s', hs', hcounted, hext⟩ := ih (h.free hn hone) (by omega)
        refine ⟨s', hs', hcounted, Extends.trans ?_ hext⟩
        exact (Extends.refl s).set hn fun _ hn' => absurd hn' (by simp)
      · rw [if_neg hone]
        refine ⟨_, rfl, ?_, ?_⟩
        · refine h.replace hn rfl (by simp only; omega) ?_ fun j hj => ?_
          · simp only [Option.toList_some, List.singleton_append, List.count_cons_self]
            omega
          · simp [Ne.symm hj]
        · refine (Extends.refl s).set hn fun n' hn' => ?_
          obtain rfl := Option.some_inj.mp hn'
          exact ⟨rfl, fun _ _ => rfl⟩

/-- Dropping a pointer to a node keeps the counts right. -/
theorem release_counted (changed : List ℕ) {s : Store α} {roots : List ℕ} {i : ℕ}
    (h : Counted s (i :: roots)) :
    ∃ s', release s i = some s' ∧ Counted s' roots ∧ Extends changed s s' :=
  dropPointer_counted changed (p := some i) h (Nat.lt_succ_of_le List.countP_le_length)

/-! ## Chains -/

/-- The nodes from a pointer on, with their places. -/
inductive Chain (s : Store α) : Option ℕ → List (ℕ × α) → Prop
  | nil : Chain s none []
  | cons {i : ℕ} {n : Node α} {cs : List (ℕ × α)} :
    read s i = some n → Chain s n.next cs → Chain s (some i) ((i, n.data) :: cs)

/-- There is one chain from a pointer on. -/
theorem Chain.unique {s : Store α} {p : Option ℕ} {cs cs' : List (ℕ × α)} (h : Chain s p cs)
    (h' : Chain s p cs') : cs = cs' := by
  induction h generalizing cs' with
  | nil => cases h'; rfl
  | cons hread _ ih =>
    cases h' with
    | cons hread' htail =>
      obtain rfl := Option.some_inj.mp (hread.symm.trans hread')
      rw [ih htail]

/-- Nodes that are linked in the order of their data, if they are put to the places from
`start` on. -/
def linked (start : ℕ) : List α → Store α
  | [] => []
  | data :: l => some ⟨l.head?.map fun _ => start + 1, 1, data⟩ :: linked (start + 1) l

/-- Linked nodes are a chain. -/
theorem chain_linked (s : Store α) (l : List α) :
    Chain (s ++ linked s.length l) (l.head?.map fun _ => s.length)
      ((List.range' s.length l.length).zip l) := by
  induction l generalizing s with
  | nil => exact .nil
  | cons data l ih =>
    have hread : read (s ++ linked s.length (data :: l)) s.length =
        some ⟨l.head?.map fun _ => s.length + 1, 1, data⟩ := by
      rw [read, linked, List.getElem?_append_right (Nat.le_refl _), Nat.sub_self]
      rfl
    have htail := ih (s ++ [some ⟨l.head?.map fun _ => s.length + 1, 1, data⟩])
    rw [List.length_append, List.length_singleton, List.append_assoc] at htail
    exact .cons hread htail

/-- A place on a chain starts a chain that is not longer. -/
theorem Chain.suffix {s : Store α} {p : Option ℕ} {cs : List (ℕ × α)} (h : Chain s p cs) :
    ∀ i ∈ cs.map Prod.fst, ∃ cs', Chain s (some i) cs' ∧ cs'.length ≤ cs.length := by
  induction h with
  | nil => simp
  | @cons i n cs hread htail ih =>
    intro j hj
    rcases List.mem_cons.mp hj with rfl | hj
    · exact ⟨_, .cons hread htail, Nat.le_refl _⟩
    · obtain ⟨cs', hchain, hle⟩ := ih j hj
      exact ⟨cs', hchain, hle.trans (Nat.le_succ _)⟩

/-- A chain does not come back to a place. -/
theorem Chain.nodup {s : Store α} {p : Option ℕ} {cs : List (ℕ × α)} (h : Chain s p cs) :
    (cs.map Prod.fst).Nodup := by
  induction h with
  | nil => exact List.nodup_nil
  | @cons i n cs hread htail ih =>
    refine List.nodup_cons.mpr ⟨fun hmem => ?_, ih⟩
    obtain ⟨cs', hchain, hle⟩ := htail.suffix i hmem
    have heq := hchain.unique (.cons hread htail)
    rw [heq, List.length_cons] at hle
    omega

/-- The places of a chain are in the store. -/
theorem Chain.lt_length {s : Store α} {p : Option ℕ} {cs : List (ℕ × α)} (h : Chain s p cs) :
    ∀ i ∈ cs.map Prod.fst, i < s.length := by
  intro i hi
  obtain ⟨cs', hchain, -⟩ := h.suffix i hi
  cases hchain with
  | cons hread _ => exact lt_length_of_read hread

/-- A chain is not longer than the store. -/
theorem Chain.length_le {s : Store α} {p : Option ℕ} {cs : List (ℕ × α)} (h : Chain s p cs) :
    cs.length ≤ s.length := by
  have hsub : cs.map Prod.fst ⊆ List.range s.length :=
    fun i hi => List.mem_range.mpr (h.lt_length i hi)
  have hle := (h.nodup.subperm hsub).length_le
  rwa [List.length_map, List.length_range] at hle

/-- A chain has only to do with its own nodes. -/
theorem Chain.congr {s s' : Store α} {p : Option ℕ} {cs : List (ℕ × α)} (h : Chain s p cs)
    (heq : ∀ i ∈ cs.map Prod.fst, read s' i = read s i) : Chain s' p cs := by
  induction h with
  | nil => exact .nil
  | cons hread _ ih =>
    rw [List.map_cons, List.forall_mem_cons] at heq
    exact .cons (heq.1.trans hread) (ih heq.2)

/-- A new node does not change a chain. -/
theorem Chain.alloc {s : Store α} {p : Option ℕ} {cs : List (ℕ × α)} (h : Chain s p cs)
    (data : α) : Chain (alloc s data) p cs :=
  h.congr fun i hi => read_alloc_of_lt (h.lt_length i hi) data

/-- A chain that starts with a node that is left is left as a whole. -/
theorem Chain.extends {s s' : Store α} {roots' : List ℕ} {p : Option ℕ} {cs : List (ℕ × α)}
    (h : Chain s p cs) (hext : Extends [] s s') (hs' : Counted s' roots')
    (hp : ∀ i ∈ p, ∃ n, read s' i = some n) : Chain s' p cs := by
  induction h with
  | nil => exact .nil
  | @cons i n cs hread _ ih =>
    obtain ⟨n', hn'⟩ := hp i rfl
    obtain ⟨m, hm, hnext, hdata⟩ := hext.kept i (lt_length_of_read hread) n' hn'
    obtain rfl := Option.some_inj.mp (hread.symm.trans hm)
    rw [← hdata List.not_mem_nil]
    refine .cons hn' ?_
    rw [hnext]
    exact ih fun j hj => hs'.read_next hn' (hnext.trans hj)

end RefCount
