import Mathlib.Algebra.Order.Group.Int
import WifiMcu.Library.Transition

/-!
# The heap

`_sbrk` moves the end of the heap. It checks the new end against the end of the memory for
the heap, but not against its beginning, and not for a wrap around of the address.
-/

namespace WifiMcu.System

open Transition

/-- `ENOMEM`. -/
def enomem : ℕ := 12

/-- The memory for the heap, as the linker script lays it out: from `_heap` up to
`_eheap`. -/
structure HeapLayout where
  heap : BitVec 32
  eheap : BitVec 32
  ordered : heap ≤ eheap

/-- A region of memory: the addresses from its start on, up to its stop. -/
structure Region where
  start : ℤ
  stop : ℤ
  deriving DecidableEq

/-- An address lies in a region. -/
def Region.Contains (r : Region) (address : ℤ) : Prop := r.start ≤ address ∧ address < r.stop

/-- No address lies in both regions. -/
def Region.Disjoint (r r' : Region) : Prop := ∀ address, r.Contains address → ¬ r'.Contains address

/-- The static variable of `_sbrk`, `errno`, and the regions that the callers have got and
not given back, the newest first. -/
structure Heap where
  heapend : BitVec 32
  errno : ℕ
  granted : List Region

/-- The state before the first call. -/
def Heap.init (l : HeapLayout) : Heap := ⟨l.heap, 0, []⟩

/-- `_sbrk`: the address that it returns, `heapend` and `errno`. -/
def sbrk (l : HeapLayout) (incr heapend : BitVec 32) (errno : ℕ) : BitVec 32 × BitVec 32 × ℕ :=
  if l.eheap < heapend + incr then (-1, heapend, enomem)
  else (heapend, heapend + incr, errno)

/-- The regions after the memory from an address on has been given back. -/
def giveBack (address : ℤ) (granted : List Region) : List Region :=
  (granted.map fun r => ⟨r.start, min r.stop address⟩).filter fun r => r.start < r.stop

/-- The regions after a call, by what it returns. -/
def account (returned incr : BitVec 32) (granted : List Region) : List Region :=
  if returned = -1 then granted
  else if 0 < incr.toInt then ⟨returned.toNat, returned.toNat + incr.toInt⟩ :: granted
  else giveBack (returned.toNat + incr.toInt) granted

/-- A call of `_sbrk`. -/
def Heap.call (l : HeapLayout) (h : Heap) (incr : BitVec 32) : Heap :=
  let r := sbrk l incr h.heapend h.errno
  ⟨r.2.1, r.2.2, account r.1 incr h.granted⟩

/-- A call is right: the break stays inside of the memory for the heap, a call that fails
leaves it alone, and one that does not returns the old break and moves it as asked
for. The regions that the callers have are disjoint and lie in the memory for the heap. -/
structure CallRight (l : HeapLayout) (h : Heap) (incr : BitVec 32) : Prop where
  lower : l.heap ≤ (h.call l incr).heapend
  upper : (h.call l incr).heapend ≤ l.eheap
  failed : (sbrk l incr h.heapend h.errno).1 = -1 → (h.call l incr).heapend = h.heapend
  moved : (sbrk l incr h.heapend h.errno).1 ≠ -1 →
    (sbrk l incr h.heapend h.errno).1 = h.heapend ∧
      ((h.call l incr).heapend.toNat : ℤ) = h.heapend.toNat + incr.toInt
  disjoint : (h.call l incr).granted.Pairwise Region.Disjoint
  within : ∀ r ∈ (h.call l incr).granted, ∀ address, r.Contains address →
    (l.heap.toNat : ℤ) ≤ address ∧ address < l.eheap.toNat

/-- The sum that a call computes is above `_eheap`, or it is the sum of the break and the
increment and not below `_heap`; and the break that is returned is not the error value. -/
def StaysInside (l : HeapLayout) (h : Heap) (incr : BitVec 32) : Prop :=
  l.eheap < h.heapend + incr ∨
    ((l.heap.toNat : ℤ) ≤ h.heapend.toNat + incr.toInt ∧ h.heapend.toNat + incr.toInt < 2 ^ 32 ∧
      (h.heapend = -1 → incr = 0))

/-- The invariant: the break and the regions are inside of the memory for the heap, and
the regions are in order. -/
structure HeapInv (l : HeapLayout) (h : Heap) : Prop where
  lower : l.heap ≤ h.heapend
  upper : h.heapend ≤ l.eheap
  ordered : h.granted.Pairwise fun r r' => r'.stop ≤ r.start
  inside : ∀ r ∈ h.granted, (l.heap.toNat : ℤ) ≤ r.start ∧ r.stop ≤ h.heapend.toNat

/-- At first the heap is empty. -/
theorem heapInv_init (l : HeapLayout) : HeapInv l (Heap.init l) where
  lower := BitVec.le_refl _
  upper := l.ordered
  ordered := List.Pairwise.nil
  inside _ hr := nomatch hr

/-- The sum that is computed is the exact one if that fits. -/
theorem toNat_add_of_fits {x incr : BitVec 32} (hlow : 0 ≤ (x.toNat : ℤ) + incr.toInt)
    (hhigh : (x.toNat : ℤ) + incr.toInt < 2 ^ 32) :
    ((x + incr).toNat : ℤ) = x.toNat + incr.toInt := by
  have hincr := incr.isLt
  rw [BitVec.toInt_eq_toNat_cond] at *
  rw [BitVec.toNat_add]
  split_ifs at * <;> omega

/-- Regions in order are disjoint. -/
theorem disjoint_of_stop_le {r r' : Region} (h : r'.stop ≤ r.start) : r.Disjoint r' := by
  intro address hr hr'
  exact absurd (hr'.2.trans_le (h.trans hr.1)) (lt_irrefl address)

/-- What the invariant says about the regions. -/
theorem HeapInv.disjoint {l : HeapLayout} {h : Heap} (hinv : HeapInv l h) :
    h.granted.Pairwise Region.Disjoint :=
  hinv.ordered.imp disjoint_of_stop_le

/-- The regions lie in the memory for the heap. -/
theorem HeapInv.within {l : HeapLayout} {h : Heap} (hinv : HeapInv l h) :
    ∀ r ∈ h.granted, ∀ address, r.Contains address →
      (l.heap.toNat : ℤ) ≤ address ∧ address < l.eheap.toNat := by
  intro r hr address hcontains
  have hinside := hinv.inside r hr
  have hupper := BitVec.le_def.mp hinv.upper
  exact ⟨hinside.1.trans hcontains.1, by have := hcontains.2; omega⟩

/-- Giving memory back keeps the order of the regions. -/
theorem giveBack_ordered {address : ℤ} {granted : List Region}
    (h : granted.Pairwise fun r r' => r'.stop ≤ r.start) :
    (giveBack address granted).Pairwise fun r r' => r'.stop ≤ r.start := by
  apply List.Pairwise.filter
  rw [List.pairwise_map]
  apply h.imp
  intro r r' hle
  exact (min_le_left _ _).trans hle

/-- What is left after memory has been given back ends where the memory that was given back
begins. -/
theorem giveBack_inside {address lower upper : ℤ} {granted : List Region}
    (h : ∀ r ∈ granted, lower ≤ r.start ∧ r.stop ≤ upper) :
    ∀ r ∈ giveBack address granted, lower ≤ r.start ∧ r.stop ≤ address := by
  intro r hr
  obtain ⟨old, hold, rfl⟩ := List.mem_map.mp (List.mem_filter.mp hr).1
  exact ⟨(h old hold).1, min_le_right _ _⟩

section Call

variable {l : HeapLayout} {h : Heap} {incr : BitVec 32}

/-- A call that is rejected changes `errno` only. -/
theorem call_of_rejected (hrejected : l.eheap < h.heapend + incr) :
    h.call l incr = ⟨h.heapend, enomem, h.granted⟩ := by
  simp [Heap.call, sbrk, account, hrejected]

/-- A call that is not rejected moves the break. -/
theorem call_of_accepted (haccepted : ¬ l.eheap < h.heapend + incr) :
    h.call l incr =
      ⟨h.heapend + incr, h.errno, account h.heapend incr h.granted⟩ := by
  simp [Heap.call, sbrk, haccepted]

/-- A call that is rejected returns the error value. -/
theorem sbrk_of_rejected (hrejected : l.eheap < h.heapend + incr) :
    (sbrk l incr h.heapend h.errno).1 = -1 := by
  simp [sbrk, hrejected]

/-- A call that is not rejected returns the old break. -/
theorem sbrk_of_accepted (haccepted : ¬ l.eheap < h.heapend + incr) :
    (sbrk l incr h.heapend h.errno).1 = h.heapend := by
  simp [sbrk, haccepted]

/-- The regions after a call lie below the new break, if a break at the error value is not
moved. -/
theorem account_inside (hinv : HeapInv l h) (hend : h.heapend = -1 → incr = 0) :
    ∀ r ∈ account h.heapend incr h.granted,
      (l.heap.toNat : ℤ) ≤ r.start ∧ r.stop ≤ h.heapend.toNat + incr.toInt := by
  have hlower := BitVec.le_def.mp hinv.lower
  unfold account
  split_ifs with herror hpos
  · -- The break is the error value, so that the increment is 0.
    rw [hend herror]
    simpa using hinv.inside
  · intro r hr
    rcases List.mem_cons.mp hr with rfl | hr
    · exact ⟨by dsimp only; omega, le_refl _⟩
    · have hinside := hinv.inside r hr
      exact ⟨hinside.1, by omega⟩
  · exact giveBack_inside hinv.inside

/-- The regions stay in order. -/
theorem account_ordered (hinv : HeapInv l h) :
    (account h.heapend incr h.granted).Pairwise fun r r' => r'.stop ≤ r.start := by
  unfold account
  split_ifs with herror hpos
  · exact hinv.ordered
  · exact List.pairwise_cons.mpr ⟨fun r hr => (hinv.inside r hr).2, hinv.ordered⟩
  · exact giveBack_ordered hinv.ordered

/-- **The invariant is preserved** by a call that stays inside. -/
theorem heapInv_call (hinv : HeapInv l h) (hstays : StaysInside l h incr) :
    HeapInv l (h.call l incr) := by
  by_cases hrejected : l.eheap < h.heapend + incr
  · rw [call_of_rejected hrejected]
    exact ⟨hinv.lower, hinv.upper, hinv.ordered, hinv.inside⟩
  · obtain ⟨hlow, hhigh, hend⟩ := hstays.resolve_left hrejected
    have hexact := toNat_add_of_fits ((Int.natCast_nonneg _).trans hlow) hhigh
    rw [call_of_accepted hrejected]
    refine ⟨?_, BitVec.not_lt.mp hrejected, account_ordered hinv, ?_⟩
    · rw [← hexact] at hlow
      exact BitVec.le_def.mpr (Int.ofNat_le.mp hlow)
    · dsimp only
      rw [hexact]
      exact account_inside hinv hend

/-- A call that stays inside is right. -/
theorem CallRight.of_staysInside (hinv : HeapInv l h) (hstays : StaysInside l h incr) :
    CallRight l h incr := by
  have hnew := heapInv_call hinv hstays
  refine ⟨hnew.lower, hnew.upper, ?_, ?_, hnew.disjoint, hnew.within⟩
  · intro hfailed
    by_cases hrejected : l.eheap < h.heapend + incr
    · rw [call_of_rejected hrejected]
    · rw [sbrk_of_accepted hrejected] at hfailed
      obtain rfl := (hstays.resolve_left hrejected).2.2 hfailed
      rw [call_of_accepted hrejected]
      exact BitVec.add_zero _
  · intro hsucceeded
    by_cases hrejected : l.eheap < h.heapend + incr
    · exact absurd (sbrk_of_rejected hrejected) hsucceeded
    · obtain ⟨hlow, hhigh, -⟩ := hstays.resolve_left hrejected
      rw [call_of_accepted hrejected]
      exact ⟨sbrk_of_accepted hrejected,
        toNat_add_of_fits ((Int.natCast_nonneg _).trans hlow) hhigh⟩

/-- A call that is right stays inside. -/
theorem CallRight.staysInside (hright : CallRight l h incr) : StaysInside l h incr := by
  by_cases hrejected : l.eheap < h.heapend + incr
  · exact Or.inl hrejected
  · right
    have hlower := BitVec.le_def.mp hright.lower
    by_cases hend : h.heapend = -1
    · -- The call returns the error value, so that the break must not move.
      have hfailed := hright.failed ((sbrk_of_accepted hrejected).trans hend)
      rw [call_of_accepted hrejected] at hfailed hlower
      dsimp only at hfailed hlower
      rw [hfailed] at hlower
      obtain rfl : incr = 0 := BitVec.add_right_eq_self.mp hfailed
      have hlt := h.heapend.isLt
      have hzero : (0 : BitVec 32).toInt = 0 := rfl
      exact ⟨by omega, by omega, fun _ => rfl⟩
    · have hmoved := (hright.moved fun herror => hend ((sbrk_of_accepted hrejected).symm.trans herror)).2
      have hlt := (h.call l incr).heapend.isLt
      exact ⟨by omega, by omega, fun herror => absurd herror hend⟩

end Call

/-- **The heap break.** All calls of a sequence are right exactly if all of them stay
inside. -/
theorem sbrk_right_iff (l : HeapLayout) (incrs : List (BitVec 32)) :
    Along (total (Heap.call l)) (CallRight l) (Heap.init l) incrs ↔
      Along (total (Heap.call l)) (StaysInside l) (Heap.init l) incrs := by
  refine along_iff (fun h incr hinv => ?_) ?_ (heapInv_init l) incrs
  · exact ⟨CallRight.staysInside, CallRight.of_staysInside hinv⟩
  · rintro h incr h' hinv hright ⟨⟩
    exact heapInv_call hinv hright.staysInside

/-- The memory for the heap of a controller with 128 kB, where the program needs 4 kB. -/
def heapLayout : HeapLayout := ⟨0x20001000, 0x2001fe00, by decide⟩

/-- Giving back memory that was not asked for moves the break out of the heap. -/
theorem not_sbrk_right :
    ¬ Along (total (Heap.call heapLayout)) (CallRight heapLayout) (Heap.init heapLayout) [-4] := by
  rintro ⟨hright, -⟩
  exact absurd hright.lower (by decide)

end WifiMcu.System
