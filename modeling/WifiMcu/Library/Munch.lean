import Mathlib.Data.Nat.Notation
import Mathlib.Tactic.Common

/-!
# Maximal munch

A run of symbols is read from the front of a list for as long as the symbols are
recognised. When a writer inverts the recogniser, reading what was written gives
the symbols back, provided that what follows is not recognised; and writing what
was read restores the list.
-/

namespace Munch

variable {α β : Type} (read : α → Option β) (write : β → α)

/-- The longest run of recognised symbols, and the rest of the list. -/
def munch : List α → List β × List α
  | [] => ([], [])
  | a :: rest => match read a with
    | some b => (b :: (munch rest).1, (munch rest).2)
    | none => ([], a :: rest)

/-- No recognised symbol stands at the front of the list. -/
def Stops (rest : List α) : Prop := ∀ a, rest.head? = some a → read a = none

variable {read write}

/-- Reading stops at once where no recognised symbol stands. -/
theorem munch_of_stops {rest : List α} (hstops : Stops read rest) :
    munch read rest = ([], rest) := by
  cases rest with
  | nil => rfl
  | cons a rest => simp [munch, hstops a rfl]

/-- Reading gives back a run that was written before something unrecognised. -/
theorem munch_append (hread : ∀ b, read (write b) = some b) (bs : List β) {rest : List α}
    (hstops : Stops read rest) : munch read (bs.map write ++ rest) = (bs, rest) := by
  induction bs with
  | nil => exact munch_of_stops hstops
  | cons b bs ih => simp [munch, hread, ih]

/-- Reading leaves a rest at which it would stop at once. -/
theorem munch_stops (l : List α) : Stops read (munch read l).2 := by
  induction l with
  | nil => simp [munch, Stops]
  | cons a rest ih =>
    cases ha : read a with
    | some b => simpa [munch, ha] using ih
    | none =>
      intro a' ha'
      obtain rfl : a = a' := by simpa [munch, ha] using ha'
      exact ha

/-- Writing what was read restores the list. -/
theorem map_munch_append (hwrite : ∀ a b, read a = some b → write b = a) (l : List α) :
    (munch read l).1.map write ++ (munch read l).2 = l := by
  induction l with
  | nil => rfl
  | cons a rest ih =>
    cases ha : read a with
    | some b => simp [munch, ha, hwrite a b ha, ih]
    | none => simp [munch, ha]

end Munch
