import Mathlib.Data.List.Chain
import Mathlib.Data.List.Flatten
import Mathlib.Data.List.Sort
import Mathlib.Tactic.Common

/-!
# Pieces of a list

A list is cut into pieces, which are put together again in the order of their numbers. A list of
numbers in ascending order is consecutive exactly if nothing is missing between its first and its
last number. Pieces that arrive in any order are collected in such a list, and a gap is looked for
on both sides of the piece that has arrived last, but not directly in front of it.
-/

namespace Pieces

/-! ## Consecutive numbers -/

/-- Every number is followed by the next one. -/
def Consecutive (l : List ℕ) : Prop := l.IsChain fun i j => i + 1 = j

/-- The numbers from one on are consecutive. -/
theorem consecutive_range' (a n : ℕ) : Consecutive (List.range' a n) := by
  induction n generalizing a with
  | zero => exact List.isChain_nil
  | succ n ih =>
    rw [List.range'_succ]
    cases n with
    | zero => exact List.isChain_singleton a
    | succ n =>
      have htail := ih (a + 1)
      rw [List.range'_succ] at htail ⊢
      exact List.isChain_cons_cons.mpr ⟨rfl, htail⟩

/-- Consecutive numbers are the numbers from the first one on. -/
theorem Consecutive.eq_range' {l : List ℕ} (h : Consecutive l) {a : ℕ} (hhead : l.head? = some a) :
    l = List.range' a l.length := by
  induction l generalizing a with
  | nil => simp at hhead
  | cons b l ih =>
    obtain rfl : b = a := by simpa using hhead
    rw [List.length_cons, List.range'_succ]
    cases l with
    | nil => rfl
    | cons c l =>
      obtain ⟨rfl, htail⟩ := List.isChain_cons_cons.mp h
      rw [← ih htail rfl]

/-- Numbers in ascending order are determined by which ones they are. -/
theorem eq_of_mem_iff {l l' : List ℕ} (h : l.Pairwise (· < ·)) (h' : l'.Pairwise (· < ·))
    (hmem : ∀ j, j ∈ l ↔ j ∈ l') : l = l' := by
  have hperm : l.Perm l' := by
    rw [List.perm_ext_iff_of_nodup h.nodup h'.nodup]
    exact hmem
  exact hperm.eq_of_pairwise (fun _ _ _ _ hab hba => absurd hab hba.not_gt) h h'

/-- Numbers in ascending order without a gap. -/
theorem eq_range'_of_mem {l : List ℕ} (h : l.Pairwise (· < ·)) {a n : ℕ}
    (hmem : ∀ j, j ∈ l ↔ a ≤ j ∧ j < a + n) : l = List.range' a n := by
  apply eq_of_mem_iff h List.pairwise_lt_range'
  intro j
  rw [hmem, List.mem_range'_1]

/-- Numbers in ascending order are cut in two at a number. -/
theorem exists_split {l : List ℕ} (h : l.Pairwise (· < ·)) (k : ℕ) :
    ∃ before after, l = before ++ after ∧ (∀ j ∈ before, j < k) ∧ ∀ j ∈ after, k ≤ j := by
  induction l with
  | nil => exact ⟨[], [], rfl, by simp, by simp⟩
  | cons i l ih =>
    obtain ⟨hi, hl⟩ := List.pairwise_cons.mp h
    by_cases hik : i < k
    · obtain ⟨before, after, rfl, hbefore, hafter⟩ := ih hl
      refine ⟨i :: before, after, rfl, ?_, hafter⟩
      intro j hj
      obtain rfl | hj := List.mem_cons.mp hj
      · exact hik
      · exact hbefore j hj
    · refine ⟨[], i :: l, rfl, by simp, ?_⟩
      intro j hj
      obtain rfl | hj := List.mem_cons.mp hj
      · omega
      · have := hi j hj
        omega

/-! ## The test for gaps -/

/-- The number that has arrived last closes a gap behind it, and there is still one in front of
it. -/
def Leaky (last : ℕ) (l : List ℕ) (k : ℕ) : Prop :=
  k < last ∧ ∃ m, 0 < m ∧ m < k ∧ ∀ j ≤ last, j ∈ k :: l ↔ j < m ∨ k ≤ j

/-- Whether a number is leaky can be decided. -/
instance Leaky.decidable (last : ℕ) (l : List ℕ) (k : ℕ) : Decidable (Leaky last l k) :=
  decidable_of_iff (k < last ∧ ∃ m < k, 0 < m ∧ ∀ j < last + 1, j ∈ k :: l ↔ j < m ∨ k ≤ j) <| by
    simp only [Leaky, Nat.lt_succ_iff]
    constructor
    · rintro ⟨hk, m, hm, hpos, hmem⟩
      exact ⟨hk, m, hpos, hm, hmem⟩
    · rintro ⟨hk, m, hpos, hm, hmem⟩
      exact ⟨hk, m, hm, hpos, hmem⟩

/-- Whether a number is leaky depends on which ones have arrived before. -/
theorem leaky_congr {last k : ℕ} {l l' : List ℕ} (h : ∀ j, j ∈ l ↔ j ∈ l') :
    Leaky last l k ↔ Leaky last l' k := by
  simp only [Leaky, List.mem_cons, h]

/-- No number of a list is leaky when it arrives for the first time, after some others. -/
def OrderlyAfter (last : ℕ) : List ℕ → List ℕ → Prop
  | _, [] => True
  | before, k :: l => (k ∉ before → ¬ Leaky last before k) ∧ OrderlyAfter last (before ++ [k]) l

/-- No number is leaky when it arrives for the first time. -/
def Orderly (last : ℕ) (l : List ℕ) : Prop := OrderlyAfter last [] l

/-- Whether the numbers arrive in order can be decided. -/
instance OrderlyAfter.decidable (last : ℕ) : ∀ before l, Decidable (OrderlyAfter last before l)
  | _, [] => isTrue trivial
  | before, k :: l =>
    have : Decidable (OrderlyAfter last (before ++ [k]) l) := OrderlyAfter.decidable last _ l
    inferInstanceAs (Decidable ((k ∉ before → ¬ Leaky last before k) ∧ _))

@[inherit_doc OrderlyAfter.decidable] instance Orderly.decidable (last : ℕ) (l : List ℕ) :
    Decidable (Orderly last l) := OrderlyAfter.decidable last [] l

/-- The test for gaps on both sides of a number, where the place directly in front of it counts
only if there is nothing behind it. -/
structure Passes (last : ℕ) (before after : List ℕ) (k : ℕ) : Prop where
  mem : last ∈ before ++ k :: after
  front : Consecutive before
  join : after = [] → ∀ j ∈ before.getLast?, j + 1 = k
  head : (before ++ k :: after).head? = some 0
  back : Consecutive (k :: after)

/-- A number passes the test exactly if all numbers are there or it is leaky. -/
theorem passes_iff {last k : ℕ} {before after : List ℕ}
    (hascending : (before ++ k :: after).Pairwise (· < ·))
    (hle : ∀ j ∈ before ++ k :: after, j ≤ last) :
    Passes last before after k ↔
      (∀ j ≤ last, j ∈ before ++ k :: after) ∨ Leaky last (before ++ after) k := by
  obtain ⟨hbefore, hafter, hcross⟩ := List.pairwise_append.mp hascending
  have hlt : ∀ j ∈ before, j < k := fun j hj => hcross j hj k List.mem_cons_self
  have hgt : ∀ j ∈ after, k < j := fun j hj => List.rel_of_pairwise_cons hafter hj
  have hk : k ≤ last := hle k (by simp)
  have hswap : ∀ j, j ∈ k :: (before ++ after) ↔ j ∈ before ++ k :: after := by
    intro j
    simp [or_left_comm]
  constructor
  · rintro ⟨hmem, hfront, hjoin, hhead, hback⟩
    have hbackEq := hback.eq_range' rfl
    have hend : k + (k :: after).length = last + 1 := by
      have hlast' : last ∈ k :: after := by
        obtain hmem | hmem := List.mem_append.mp hmem
        · have := hlt last hmem
          omega
        · exact hmem
      rw [hbackEq, List.mem_range'_1] at hlast'
      have hlargest : k + after.length ∈ k :: after := by
        rw [hbackEq, List.mem_range'_1, List.length_cons]
        omega
      have := hle _ (List.mem_append_right _ hlargest)
      rw [List.length_cons] at hlast' ⊢
      omega
    have hbackMem : ∀ j, j ∈ k :: after ↔ k ≤ j ∧ j ≤ last := by
      intro j
      rw [hbackEq, List.mem_range'_1, hend, Nat.lt_succ_iff]
    cases hnil : before with
    | nil =>
      left
      obtain rfl : k = 0 := by simpa [hnil] using hhead
      intro j hj
      rw [List.nil_append, hbackMem]
      omega
    | cons b rest =>
      have hfrontEq := hfront.eq_range' (a := 0) (by simpa [hnil] using hhead)
      have hfrontMem : ∀ j, j ∈ before ↔ j < before.length := by
        intro j
        rw [hfrontEq, List.mem_range'_1, List.length_range']
        omega
      have hpos : 0 < before.length := by simp [hnil]
      have hshort : before.length ≤ k := by
        have := hlt (before.length - 1) ((hfrontMem _).mpr (by omega))
        omega
      rw [← hnil]
      have hall : ∀ j ≤ last, j ∈ before ++ k :: after ↔ j < before.length ∨ k ≤ j := by
        intro j hj
        rw [List.mem_append, hfrontMem, hbackMem]
        omega
      by_cases hgap : before.length = k
      · left
        intro j hj
        rw [hall j hj]
        omega
      · right
        refine ⟨?_, before.length, hpos, by omega, fun j hj => (hswap j).trans (hall j hj)⟩
        by_contra hnot
        have hempty : after = [] := by
          rw [List.length_cons] at hend
          exact List.length_eq_zero_iff.mp (by omega)
        have hlargest : before.getLast? = some (before.length - 1) := by
          rw [List.getLast?_eq_getElem?, hfrontEq, List.length_range', List.getElem?_range']
          · simp
          · omega
        have := hjoin hempty _ hlargest
        omega
  · have hparts : ∀ m ≤ k, (m = 0 → k = 0) → (k = last → m = k) →
        (∀ j ≤ last, j ∈ before ++ k :: after ↔ j < m ∨ k ≤ j) → Passes last before after k := by
      intro m hm hzero hclosed hmem
      have hfrontEq : before = List.range' 0 m := by
        apply eq_range'_of_mem hbefore
        intro j
        constructor
        · intro hj
          have := hlt j hj
          have := (hmem j (by omega)).mp (List.mem_append_left _ hj)
          omega
        · rintro ⟨-, hj⟩
          obtain hj' | hj' := List.mem_append.mp ((hmem j (by omega)).mpr (Or.inl (by omega)))
          · exact hj'
          · obtain rfl | hj' := List.mem_cons.mp hj'
            · omega
            · have := hgt j hj'
              omega
      have hbackEq : k :: after = List.range' k (last + 1 - k) := by
        apply eq_range'_of_mem hafter
        intro j
        constructor
        · intro hj
          have := hle j (List.mem_append_right _ hj)
          obtain rfl | hj := List.mem_cons.mp hj
          · omega
          · have := hgt j hj
            omega
        · rintro ⟨hkj, hj⟩
          obtain hj' | hj' := List.mem_append.mp ((hmem j (by omega)).mpr (Or.inr hkj))
          · have := hlt j hj'
            omega
          · exact hj'
      refine ⟨(hmem last le_rfl).mpr (Or.inr hk), ?_, ?_, ?_, ?_⟩
      · rw [hfrontEq]
        exact consecutive_range' 0 m
      · intro hempty j hj
        have hend := congrArg List.length hbackEq
        rw [hempty, List.length_singleton, List.length_range'] at hend
        have hmk := hclosed (by omega)
        rw [hfrontEq, List.getLast?_range'] at hj
        split_ifs at hj with hm0
        · simp at hj
        · obtain rfl : 0 + m - 1 = j := by simpa using hj
          omega
      · rw [hfrontEq]
        cases m with
        | zero => simp [hzero rfl]
        | succ m => rw [List.range'_succ, List.cons_append, List.head?_cons]
      · rw [hbackEq]
        exact consecutive_range' k _
    rintro (hall | ⟨hk, m, hpos, hm, hmem⟩)
    · exact hparts k le_rfl id (fun _ => rfl)
        fun j hj => iff_of_true (hall j hj) (Nat.lt_or_ge j k)
    · exact hparts m hm.le (by omega) (by omega) fun j hj => (hswap j).symm.trans (hmem j hj)

/-! ## Putting together -/

variable {α : Type*}

/-- The piece of a list between two of its cuts. -/
def piece (data : List α) (offs : ℕ → ℕ) (k : ℕ) : List α :=
  (data.drop (offs k)).take (offs (k + 1) - offs k)

/-- Consecutive pieces are one piece. -/
theorem flatMap_piece_range' (data : List α) {offs : ℕ → ℕ} {a n : ℕ}
    (hoffs : ∀ k, a ≤ k → k < a + n → offs k ≤ offs (k + 1)) :
    (List.range' a n).flatMap (piece data offs) =
      (data.drop (offs a)).take (offs (a + n) - offs a) ∧ offs a ≤ offs (a + n) := by
  induction n generalizing a with
  | zero => simp
  | succ n ih =>
    obtain ⟨hrest, hle⟩ := ih (a := a + 1) fun k hk hlt => hoffs k (by omega) (by omega)
    have hstep := hoffs a le_rfl (by omega)
    rw [show a + 1 + n = a + (n + 1) by omega] at hrest hle
    refine ⟨?_, hstep.trans hle⟩
    rw [List.range'_succ, List.flatMap_cons, hrest, piece,
      show offs (a + (n + 1)) - offs a =
        offs (a + 1) - offs a + (offs (a + (n + 1)) - offs (a + 1)) by omega,
      List.take_add, List.drop_drop, Nat.add_sub_of_le hstep]

/-- A list of which a part is left out gets shorter by this part. -/
theorem length_flatMap_lt {ι : Type*} [DecidableEq ι] {f : ι → List α} {l l' : List ι} {i : ι}
    (hsub : l'.Sublist l) (hmem : i ∈ l) (hmissing : i ∉ l') (hi : f i ≠ []) :
    (l'.flatMap f).length < (l.flatMap f).length := by
  have hsub' : l'.Sublist (l.erase i) := by
    have herase := hsub.erase i
    rwa [List.erase_of_not_mem hmissing] at herase
  have hle := (hsub'.flatMap f).length_le
  have hperm := ((List.perm_cons_erase hmem).flatMap_right f).length_eq
  rw [List.flatMap_cons, List.length_append] at hperm
  have hpos := List.length_pos_iff.mpr hi
  omega

end Pieces
