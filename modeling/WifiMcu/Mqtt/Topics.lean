import WifiMcu.Library.Levels
import WifiMcu.Mqtt.Client

/-!
# Topic filters

`isTopicMatched` compares a topic filter with a topic name letter by letter. On filters in
the correct format it never matches a name that the filter does not match. It misses the
names where a wildcard meets an empty level, or where `#` meets no level at all.
-/

namespace WifiMcu.Mqtt

open Levels

/-- The letters of a topic filter that have no meaning of their own. -/
def PlainLetter (c : UInt8) : Prop := c ≠ 0x2F ∧ c ≠ 0x2B ∧ c ≠ 0x23

/-- A topic filter in the correct format: a `#` is the last level, and a wildcard is a whole
level. -/
abbrev TopicFilter := Pattern PlainLetter

/-- The letters of a level of a topic filter. -/
def levelText : Level PlainLetter → List UInt8
  | .literal text _ => text
  | .one => [0x2B]

/-- The letters of a topic filter. -/
def filterText : TopicFilter → List UInt8
  | .many => [0x23]
  | .last l => levelText l
  | .level l f => levelText l ++ 0x2F :: filterText f

/-- The levels of a topic name. -/
def topicLevels (topicName : List UInt8) : List (List UInt8) := topicName.splitOn 0x2F

/-- A rest of a topic filter or of a topic name is empty, or it begins with a separator. -/
def AtSeparator (rest : List UInt8) : Prop := rest = [] ∨ ∃ behind, rest = 0x2F :: behind

/-- Where the name ends, the filter must end. -/
theorem isTopicMatched_nil (topicFilter : List UInt8) :
    isTopicMatched topicFilter [] = topicFilter.isEmpty := by
  cases topicFilter <;> rfl

/-- A separator of the name needs one of the filter. -/
theorem isTopicMatched_separator {f : UInt8} (hf : f ≠ 0x2F) (topicFilter topicName : List UInt8) :
    isTopicMatched (f :: topicFilter) (0x2F :: topicName) = false := by
  rw [isTopicMatched, if_pos ⟨rfl, hf⟩]

/-- A letter without a meaning of its own needs the same letter of the name. -/
theorem isTopicMatched_plain {f n : UInt8} (hf : f ≠ 0x2B ∧ f ≠ 0x23) (hn : n = 0x2F → f = 0x2F)
    (topicFilter topicName : List UInt8) :
    isTopicMatched (f :: topicFilter) (n :: topicName) =
      (decide (f = n) && isTopicMatched topicFilter topicName) := by
  rw [isTopicMatched, if_neg (fun h => h.2 (hn h.1))]
  by_cases heq : f = n
  · rw [if_neg (fun h => h.2.2 heq), if_neg hf.1, if_neg hf.2, decide_eq_true heq, Bool.true_and]
  · rw [if_pos ⟨hf.1, hf.2, heq⟩, decide_eq_false heq, Bool.false_and]

/-- A rest of the name at a separator does not match a letter of the filter. -/
theorem isTopicMatched_letter_rest {f : UInt8} (hf : f ≠ 0x2F) (topicFilter : List UInt8)
    {N : List UInt8} (hN : AtSeparator N) : isTopicMatched (f :: topicFilter) N = false := by
  rcases hN with rfl | ⟨behind, rfl⟩
  · rfl
  · exact isTopicMatched_separator hf topicFilter behind

/-- A rest of the filter at a separator does not match a letter of the name. -/
theorem isTopicMatched_rest_letter {n : UInt8} (hn : n ≠ 0x2F) {F : List UInt8}
    (hF : AtSeparator F) (topicName : List UInt8) : isTopicMatched F (n :: topicName) = false := by
  rcases hF with rfl | ⟨behind, rfl⟩
  · rfl
  · rw [isTopicMatched_plain (by decide) (fun h => absurd h hn), decide_eq_false (Ne.symm hn),
      Bool.false_and]

/-- A literal level of the filter matches the same level of the name. -/
theorem isTopicMatched_literal {text n F N : List UInt8} (htext : ∀ c ∈ text, PlainLetter c)
    (hn : 0x2F ∉ n) (hF : AtSeparator F) (hN : AtSeparator N) :
    isTopicMatched (text ++ F) (n ++ N) = (decide (text = n) && isTopicMatched F N) := by
  induction text generalizing n with
  | nil =>
    cases n with
    | nil => rfl
    | cons c n =>
      rw [List.mem_cons, not_or] at hn
      exact isTopicMatched_rest_letter (Ne.symm hn.1) hF (n ++ N)
  | cons f text ih =>
    rw [List.forall_mem_cons] at htext
    cases n with
    | nil => exact isTopicMatched_letter_rest htext.1.1 (text ++ F) hN
    | cons c n =>
      rw [List.mem_cons, not_or] at hn
      rw [List.cons_append, List.cons_append,
        isTopicMatched_plain htext.1.2 (fun h => absurd h.symm hn.1), ih htext.2 hn.2,
        ← Bool.and_assoc]
      congr 1
      simp

/-- What is skipped for a `+` is the rest of the level. -/
theorem dropWhile_level {n N : List UInt8} (hn : 0x2F ∉ n) (hN : AtSeparator N) :
    (n ++ N).dropWhile (fun c => decide (c ≠ 0x2F)) = N := by
  induction n with
  | nil =>
    rcases hN with rfl | ⟨behind, rfl⟩
    · rfl
    · rfl
  | cons c n ih =>
    rw [List.mem_cons, not_or] at hn
    rw [List.cons_append, List.dropWhile_cons_of_pos (by simpa using Ne.symm hn.1), ih hn.2]

/-- A `+` matches a level that is not empty. -/
theorem isTopicMatched_plus {n F N : List UInt8} (hn : 0x2F ∉ n) (hN : AtSeparator N) :
    isTopicMatched (0x2B :: F) (n ++ N) = (decide (n ≠ []) && isTopicMatched F N) := by
  cases n with
  | nil => exact isTopicMatched_letter_rest (by decide) F hN
  | cons c n =>
    rw [List.mem_cons, not_or] at hn
    rw [List.cons_append, isTopicMatched, if_neg (fun h => hn.1 h.1.symm),
      if_neg (by simp), if_pos rfl, dropWhile_level hn.2 hN]
    rfl

/-- A `#` matches everything behind a level that is not empty. -/
theorem isTopicMatched_hash {n N : List UInt8} (hn : 0x2F ∉ n) (hN : AtSeparator N) :
    isTopicMatched [0x23] (n ++ N) = decide (n ≠ []) := by
  cases n with
  | nil => exact isTopicMatched_letter_rest (by decide) [] hN
  | cons c n =>
    rw [List.mem_cons, not_or] at hn
    rw [List.cons_append, isTopicMatched, if_neg (fun h => hn.1 h.1.symm), if_neg (by simp),
      if_neg (by decide), if_pos rfl]
    rfl

/-- A level of the filter matches a level of the name if it does so by its meaning, and a
wildcard stands for one letter at least. -/
theorem isTopicMatched_level (l : Level PlainLetter) {n F N : List UInt8} (hn : 0x2F ∉ n)
    (hF : AtSeparator F) (hN : AtSeparator N) :
    isTopicMatched (levelText l ++ F) (n ++ N) = true ↔
      (l.Matches n ∧ l.Faces n) ∧ isTopicMatched F N = true := by
  cases l with
  | literal text letters =>
    rw [levelText, isTopicMatched_literal letters hn hF hN, Bool.and_eq_true, decide_eq_true_iff]
    exact and_congr_left fun _ => (and_iff_left trivial).symm
  | one =>
    rw [levelText, List.singleton_append, isTopicMatched_plus hn hN, Bool.and_eq_true,
      decide_eq_true_iff]
    exact and_congr_left fun _ => (and_iff_right trivial).symm

/-- **Topic filters.** For every filter in the correct format and every name, the code
matches exactly if the levels of the name match the filter and every wildcard of the
filter stands for one letter at least. -/
theorem isTopicMatched_iff (f : TopicFilter) (topicName : List UInt8) :
    isTopicMatched (filterText f) topicName = true ↔
      f.Matches (topicLevels topicName) ∧ f.Faces (topicLevels topicName) := by
  have hend : AtSeparator ([] : List UInt8) := Or.inl rfl
  induction f generalizing topicName with
  | many =>
    obtain ⟨n, hn, ⟨rfl, hlevels⟩ | ⟨rest, rfl, hlevels⟩⟩ := exists_level 0x2F topicName
    · have hmatch := isTopicMatched_hash hn hend
      rw [List.append_nil] at hmatch
      rw [filterText, hmatch, topicLevels, hlevels]
      simp [Pattern.Matches, Pattern.Faces]
    · have hmatch := isTopicMatched_hash hn (Or.inr ⟨rest, rfl⟩)
      rw [filterText, hmatch, topicLevels, hlevels]
      simp [Pattern.Matches, Pattern.Faces]
  | last l =>
    obtain ⟨n, hn, ⟨rfl, hlevels⟩ | ⟨rest, rfl, hlevels⟩⟩ := exists_level 0x2F topicName
    · have hmatch := isTopicMatched_level l hn hend hend
      rw [List.append_nil, List.append_nil] at hmatch
      rw [filterText, hmatch, topicLevels, hlevels]
      exact and_iff_left rfl
    · have hmatch := isTopicMatched_level l hn hend (Or.inr ⟨rest, rfl⟩)
      rw [List.append_nil] at hmatch
      rw [filterText, hmatch, topicLevels, hlevels]
      obtain ⟨m, ms, hms⟩ := List.exists_cons_of_ne_nil (List.splitOn_ne_nil 0x2F rest)
      rw [hms]
      exact iff_of_false (fun h => Bool.false_ne_true h.2) (fun h => h.1.elim)
  | level l f ih =>
    obtain ⟨n, hn, ⟨rfl, hlevels⟩ | ⟨rest, rfl, hlevels⟩⟩ := exists_level 0x2F topicName
    · have hmatch := isTopicMatched_level l hn (Or.inr ⟨filterText f, rfl⟩) hend
      rw [List.append_nil] at hmatch
      rw [filterText, hmatch, topicLevels, hlevels, isTopicMatched_nil]
      refine iff_of_false (fun h => Bool.false_ne_true h.2) ?_
      rintro ⟨⟨-, hmatches⟩, -, hfaces⟩
      exact not_faces_nil hmatches hfaces
    · have hmatch :=
        isTopicMatched_level l hn (Or.inr ⟨filterText f, rfl⟩) (Or.inr ⟨rest, rfl⟩)
      have hslash : isTopicMatched (0x2F :: filterText f) (0x2F :: rest) =
          isTopicMatched (filterText f) rest := isTopicMatched_plain (by decide) (fun _ => rfl) _ _
      have hrest : isTopicMatched (filterText f) rest = true ↔
          f.Matches (topicLevels rest) ∧ f.Faces (topicLevels rest) := ih rest
      have hall : topicLevels (n ++ 0x2F :: rest) = n :: topicLevels rest := hlevels
      rw [filterText, hmatch, hslash, hrest, hall]
      exact and_and_and_comm

end WifiMcu.Mqtt
