import Mathlib.Tactic.Common

/-!
# Names and patterns of levels

A name is a string that a separator divides into levels. A pattern consists of levels as
well: a literal level, a wildcard for any one level, and at the end, perhaps, a wildcard
for all levels that are left, with the level above them included.
-/

namespace Levels

variable {α : Type*}

/-- A level of a pattern: the letters it consists of, none of which has a meaning of its own,
or the wildcard for one level. -/
inductive Level (plain : α → Prop)
  | literal (text : List α) (letters : ∀ c ∈ text, plain c)
  | one

/-- A pattern. The wildcard for all levels that are left stands at its end only. -/
inductive Pattern (plain : α → Prop)
  | many
  | last (l : Level plain)
  | level (l : Level plain) (rest : Pattern plain)

variable {plain : α → Prop}

/-- A level of a name matches a level of a pattern. -/
def Level.Matches : Level plain → List α → Prop
  | .literal text _, n => text = n
  | .one, _ => True

/-- The levels of a name match a pattern. -/
def Pattern.Matches : Pattern plain → List (List α) → Prop
  | .many, _ => True
  | .last l, [n] => l.Matches n
  | .last _, _ => False
  | .level l f, n :: ns => l.Matches n ∧ f.Matches ns
  | .level _ _, [] => False

/-- A wildcard for one level stands for one letter at least. -/
def Level.Faces : Level plain → List α → Prop
  | .literal _ _, _ => True
  | .one, n => n ≠ []

/-- Every wildcard of a pattern stands for one letter at least, namely for the first one of
the level that it meets. -/
def Pattern.Faces : Pattern plain → List (List α) → Prop
  | .many, ns => ∃ n rest, ns = n :: rest ∧ n ≠ []
  | .last l, n :: _ => l.Faces n
  | .last _, [] => True
  | .level l f, n :: ns => l.Faces n ∧ f.Faces ns
  | .level _ _, [] => True

/-- Only the wildcard for all levels matches no level at all, and then it stands for
nothing. -/
theorem not_faces_nil {f : Pattern plain} (h : f.Matches []) : ¬ f.Faces [] := by
  cases f with
  | many =>
    rintro ⟨n, rest, hnil, -⟩
    cases hnil
  | last l => exact h.elim
  | level l f => exact h.elim

section Text

variable [DecidableEq α] (sep : α)

/-- A name is its first level alone, or its first level, a separator and the other levels. -/
theorem exists_level (name : List α) : ∃ n, sep ∉ n ∧
    (name = n ∧ name.splitOn sep = [n] ∨
      ∃ rest, name = n ++ sep :: rest ∧ name.splitOn sep = n :: rest.splitOn sep) := by
  induction name with
  | nil => exact ⟨[], List.not_mem_nil, Or.inl ⟨rfl, rfl⟩⟩
  | cons c name ih =>
    obtain ⟨n, hn, hname⟩ := ih
    by_cases hc : c = sep
    · refine ⟨[], List.not_mem_nil, Or.inr ⟨name, by rw [hc]; rfl, ?_⟩⟩
      rw [hc]
      exact List.splitOn_append_cons_self_of_not_mem List.not_mem_nil name
    · have hcons : sep ∉ c :: n := by
        rw [List.mem_cons]
        rintro (rfl | hmem)
        · exact hc rfl
        · exact hn hmem
      refine ⟨c :: n, hcons, ?_⟩
      rcases hname with ⟨rfl, -⟩ | ⟨rest, rfl, -⟩
      · exact Or.inl ⟨rfl, List.splitOn_eq_singleton hcons⟩
      · exact Or.inr ⟨rest, rfl, List.splitOn_append_cons_self_of_not_mem hcons rest⟩

end Text

end Levels
