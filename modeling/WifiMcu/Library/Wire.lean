import WifiMcu.Library.Memory

/-!
# Repeated fields in a memory

Items of different lengths lie one behind the other, up to the end of the data. A reader
takes one item from an address and moves forward. Reading until the end gives back
items that have been written one behind the other, and stops at the first one that
cannot be read.
-/

namespace Wire

open Memory

variable {α β γ : Type*}

/-- A reader of one item: the item at an address and the address behind it. -/
structure Reader (α : Type*) where
  read : ℕ → Option (α × ℕ)
  forward : ∀ {i a j}, read i = some (a, j) → i < j

/-- Read items until the end of the data: whether all of them could be read, and the items. -/
def Reader.readAll (r : Reader α) (stop i : ℕ) : Bool × List α :=
  if i < stop then
    match h : r.read i with
    | none => (false, [])
    | some (a, j) =>
      have := r.forward h
      let (ok, items) := r.readAll stop j
      (ok, a :: items)
  else (true, [])
termination_by stop - i

/-- What has been written of an item is read as this item, before the end of the data. -/
def Reader.Understands (r : Reader α) (stop : ℕ) (m : ℕ → γ) (write : β → List γ) (read : β → α)
    (b : β) : Prop :=
  ∀ i, Holds m i (write b) → i + (write b).length ≤ stop →
    r.read i = some (read b, i + (write b).length)

/-- At the end of the data nothing is left to read. -/
theorem Reader.readAll_stop (r : Reader α) {stop i : ℕ} (h : stop ≤ i) :
    r.readAll stop i = (true, []) := by
  rw [Reader.readAll, if_neg (by omega)]

/-- One item is read, and then the other ones. -/
theorem Reader.readAll_some (r : Reader α) {stop i j : ℕ} {a : α} (hi : i < stop)
    (h : r.read i = some (a, j)) :
    r.readAll stop i = ((r.readAll stop j).1, a :: (r.readAll stop j).2) := by
  rw [Reader.readAll, if_pos hi]
  split
  · rename_i hnone
    rw [h] at hnone
    cases hnone
  · rename_i a' j' hsome
    rw [h] at hsome
    cases hsome
    rfl

/-- **Repeated fields.** Items that have been written one behind the other, up to the end
of the data, are all read back. -/
theorem Reader.readAll_flatMap (r : Reader α) {stop : ℕ} {m : ℕ → γ} {write : β → List γ}
    {read : β → α} {items : List β} (hitem : ∀ b ∈ items, r.Understands stop m write read b)
    {i : ℕ} (hholds : Holds m i (items.flatMap write))
    (hstop : i + (items.flatMap write).length = stop) :
    r.readAll stop i = (true, items.map read) := by
  induction items generalizing i with
  | nil => exact r.readAll_stop (Nat.le_of_eq hstop.symm)
  | cons b items ih =>
    rw [List.flatMap_cons] at hholds hstop
    rw [List.length_append] at hstop
    obtain ⟨hfirst, hothers⟩ := holds_append.mp hholds
    have hread := hitem b List.mem_cons_self i hfirst (by omega)
    have hlt := r.forward hread
    rw [r.readAll_some (by omega) hread,
      ih (fun c hc => hitem c (List.mem_cons_of_mem _ hc)) hothers (by omega)]
    rfl

end Wire
