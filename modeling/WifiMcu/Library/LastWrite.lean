import Mathlib.Tactic.Common

/-!
# The last write wins

Calls write values to keys, several keys at once if they like. What matters of a
sequence of calls to one key is the last call that writes to it. A state that is
changed by such calls, and by nothing else, shows at each key the value of this
call, or its initial value if there is none.
-/

namespace LastWrite

variable {α κ ν σ : Type*} (writes : α → κ → Option ν)

/-- The value that the last call writing to a key gives to it. -/
def lastWrite (k : κ) : List α → Option ν
  | [] => none
  | a :: as => (lastWrite k as).or (writes a k)

/-- Without calls nothing is written. -/
@[simp] theorem lastWrite_nil (k : κ) : lastWrite writes k [] = none := rfl

/-- What the first call writes counts only if no later call writes to the key. -/
@[simp] theorem lastWrite_cons (k : κ) (a : α) (as : List α) :
    lastWrite writes k (a :: as) = (lastWrite writes k as).or (writes a k) := rfl

/-- What the last call writes counts. -/
@[simp] theorem lastWrite_concat (k : κ) (as : List α) (a : α) :
    lastWrite writes k (as ++ [a]) = (writes a k).or (lastWrite writes k as) := by
  induction as with
  | nil => simp
  | cons b as ih => rw [List.cons_append, lastWrite_cons, ih, lastWrite_cons, Option.or_assoc]

/-- Nothing has been written to a key if no call writes to it. -/
theorem lastWrite_eq_none_iff {k : κ} {as : List α} :
    lastWrite writes k as = none ↔ ∀ a ∈ as, writes a k = none := by
  induction as with
  | nil => simp
  | cons a as ih =>
    rw [lastWrite_cons, Option.or_eq_none_iff, ih, List.forall_mem_cons]
    exact and_comm

/-- The value written last comes from a call that is followed by no other one writing to
the key. -/
theorem lastWrite_eq_some_iff {k : κ} {v : ν} {as : List α} :
    lastWrite writes k as = some v ↔ ∃ before a after, as = before ++ a :: after ∧
      writes a k = some v ∧ ∀ b ∈ after, writes b k = none := by
  induction as with
  | nil => simp
  | cons a as ih =>
    rw [lastWrite_cons, Option.or_eq_some_iff, ih, lastWrite_eq_none_iff]
    constructor
    · rintro (⟨before, b, after, rfl, hb, hafter⟩ | ⟨hafter, ha⟩)
      · exact ⟨a :: before, b, after, rfl, hb, hafter⟩
      · exact ⟨[], a, as, rfl, ha, hafter⟩
    · rintro ⟨before, b, after, heq, hb, hafter⟩
      rcases before with _ | ⟨c, before⟩
      · obtain ⟨rfl, rfl⟩ := List.cons.inj heq
        exact Or.inr ⟨hafter, hb⟩
      · obtain ⟨rfl, rfl⟩ := List.cons.inj heq
        exact Or.inl ⟨before, b, after, rfl, hb, hafter⟩

variable {writes}

/-- **Last-write rule.** If every call changes what is seen of a state at a key to the
value that it writes there, and leaves it alone if it writes nothing, then after any
calls the value of the last write is seen. -/
theorem foldl_view {f : σ → α → σ} {view : σ → κ → ν}
    (hstep : ∀ s a k, view (f s a) k = (writes a k).getD (view s k)) (s : σ) (as : List α) (k : κ) :
    view (as.foldl f s) k = (lastWrite writes k as).getD (view s k) := by
  induction as generalizing s with
  | nil => rfl
  | cons a as ih =>
    rw [List.foldl_cons, ih, hstep, lastWrite_cons]
    cases lastWrite writes k as <;> rfl

end LastWrite
