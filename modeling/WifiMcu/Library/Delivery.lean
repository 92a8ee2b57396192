import Mathlib.Data.Nat.Notation
import Mathlib.Tactic.Common

/-!
# Chunked delivery of a stream

What a receiver sees of a stream are events: a chunk of one or more elements, or a
failure. A receiver that wants fewer elements than there are in a chunk leaves the
rest of it for later. Some failures stop a receiver, and it ignores the other ones.
-/

namespace Delivery

/-- One event: a chunk of elements that arrives as a whole, or a failure. -/
inductive Event (α ε : Type*)
  | data (first : α) (others : List α)
  | fail (e : ε)
  deriving DecidableEq

variable {α ε : Type*}

/-- All elements that the events deliver, in order. -/
def content : List (Event α ε) → List α
  | [] => []
  | .data first others :: ev => first :: others ++ content ev
  | .fail _ :: ev => content ev

/-- What is left of a chunk is delivered before the other events. -/
def leftover : List α → List (Event α ε) → List (Event α ε)
  | [], ev => ev
  | a :: as, ev => .data a as :: ev

/-- The events behind a number of elements, if no failure comes before the last of
these elements. -/
def advance : ℕ → List (Event α ε) → Option (List (Event α ε))
  | 0, ev => some ev
  | n + 1, .data _ others :: ev => advance n (leftover others ev)
  | _ + 1, _ => none

/-- The number of elements in the first chunk, unless the first event is a failure. -/
def headLength : List (Event α ε) → ℕ
  | .data _ others :: _ => others.length + 1
  | _ => 0

/-- The number of elements that arrive before the first failure that stops a receiver. -/
def before (stops : ε → Bool) : List (Event α ε) → ℕ
  | [] => 0
  | .data _ others :: ev => others.length + 1 + before stops ev
  | .fail e :: ev => if stops e then 0 else before stops ev

/-- The next element or the failure that stops a receiver waiting for it, with the
events behind it. -/
def next (stops : ε → Bool) : List (Event α ε) → Option (Except ε α × List (Event α ε))
  | [] => none
  | .data first others :: ev => some (.ok first, leftover others ev)
  | .fail e :: ev => if stops e then some (.error e, ev) else next stops ev

/-- The events from the first chunk on. -/
def dropFailures : List (Event α ε) → List (Event α ε)
  | .fail _ :: ev => dropFailures ev
  | ev => ev

/-- All failures among the events have a property. -/
def Failures (P : ε → Prop) (ev : List (Event α ε)) : Prop := ∀ e, Event.fail e ∈ ev → P e

/-- The elements left of a chunk come first. -/
@[simp] theorem content_leftover (as : List α) (ev : List (Event α ε)) :
    content (leftover as ev) = as ++ content ev := by
  cases as <;> rfl

/-- The elements left of a chunk arrive before any failure. -/
@[simp] theorem before_leftover (stops : ε → Bool) (as : List α) (ev : List (Event α ε)) :
    before stops (leftover as ev) = as.length + before stops ev := by
  cases as with
  | nil => exact (Nat.zero_add _).symm
  | cons a as => rfl

/-- A failure that stops a receiver is what it gets next. -/
theorem next_fail {stops : ε → Bool} {e : ε} (h : stops e = true) (ev : List (Event α ε)) :
    next stops (.fail e :: ev) = some (.error e, ev) :=
  if_pos h

/-- Failures with a property keep it behind an event. -/
theorem Failures.tail {P : ε → Prop} {event : Event α ε} {ev : List (Event α ε)}
    (h : Failures P (event :: ev)) : Failures P ev :=
  fun e he => h e (List.mem_cons_of_mem _ he)

/-- What is left of a chunk adds no failure. -/
theorem Failures.leftover {P : ε → Prop} {ev : List (Event α ε)} (h : Failures P ev)
    (as : List α) : Failures P (leftover as ev) := by
  cases as with
  | nil => exact h
  | cons a as =>
    intro e he
    rcases List.mem_cons.mp he with heq | hmem
    · cases heq
    · exact h e hmem

/-- A part of what is left of a chunk is passed. -/
theorem advance_leftover {as : List α} {n : ℕ} (hn : n ≤ as.length) (ev : List (Event α ε)) :
    advance n (leftover as ev) = some (leftover (as.drop n) ev) := by
  induction as generalizing n with
  | nil =>
    obtain rfl : n = 0 := Nat.le_zero.mp hn
    rfl
  | cons a as ih =>
    cases n with
    | zero => rfl
    | succ n => exact ih (Nat.le_of_succ_le_succ hn)

/-- Elements are passed in two parts. -/
theorem advance_add (m n : ℕ) (ev : List (Event α ε)) :
    advance (m + n) ev = (advance m ev).bind (advance n) := by
  induction m generalizing ev with
  | zero => rw [Nat.zero_add]; rfl
  | succ m ih =>
    rw [Nat.succ_add]
    match ev with
    | .data first others :: ev => exact ih _
    | .fail e :: ev => rfl
    | [] => rfl

/-- Passing elements takes them off the content. -/
theorem content_advance {n : ℕ} {ev rest : List (Event α ε)} (h : advance n ev = some rest) :
    (content ev).drop n = content rest ∧ n ≤ (content ev).length := by
  induction n generalizing ev with
  | zero =>
    obtain rfl : ev = rest := Option.some.inj h
    exact ⟨rfl, Nat.zero_le _⟩
  | succ n ih =>
    match ev, h with
    | .data first others :: ev, h =>
      obtain ⟨hdrop, hle⟩ := ih h
      rw [content_leftover] at hdrop hle
      exact ⟨hdrop, Nat.succ_le_succ hle⟩

/-- Failures with a property keep it behind the elements passed. -/
theorem Failures.advance {P : ε → Prop} {n : ℕ} {ev rest : List (Event α ε)}
    (hP : Failures P ev) (h : advance n ev = some rest) : Failures P rest := by
  induction n generalizing ev with
  | zero =>
    obtain rfl : ev = rest := Option.some.inj h
    exact hP
  | succ n ih =>
    match ev, h, hP with
    | .data first others :: ev, h, hP => exact ih (hP.tail.leftover others) h

/-- Where every failure stops, the elements before the first one can be passed. -/
theorem advance_isSome_iff {stops : ε → Bool} {n : ℕ} {ev : List (Event α ε)}
    (hstops : Failures (fun e => stops e = true) ev) :
    (advance n ev).isSome ↔ n ≤ before stops ev := by
  induction n generalizing ev with
  | zero => exact iff_of_true rfl (Nat.zero_le _)
  | succ n ih =>
    match ev, hstops with
    | [], _ => exact iff_of_false Bool.false_ne_true (Nat.not_succ_le_zero n)
    | .fail e :: ev, hstops =>
      have hzero : before stops (Event.fail e :: ev) = 0 :=
        if_pos (hstops e List.mem_cons_self)
      rw [hzero]
      exact iff_of_false Bool.false_ne_true (Nat.not_succ_le_zero n)
    | .data first others :: ev, hstops =>
      have hrest := ih (hstops.tail.leftover others)
      rw [before_leftover] at hrest
      rw [advance, hrest, before]
      omega

/-- From the first chunk on the events deliver the same. -/
@[simp] theorem content_dropFailures (ev : List (Event α ε)) : content (dropFailures ev) = content ev := by
  induction ev with
  | nil => rfl
  | cons event ev ih =>
    cases event with
    | data first others => rfl
    | fail e => exact ih

/-- From the first chunk on there are no new failures. -/
theorem failures_dropFailures {P : ε → Prop} {ev : List (Event α ε)} (h : Failures P ev) :
    Failures P (dropFailures ev) := by
  induction ev with
  | nil => exact h
  | cons event ev ih =>
    cases event with
    | data first others => exact h
    | fail e => exact ih h.tail

/-- Where elements arrive, there is a first chunk. -/
theorem headLength_dropFailures {ev : List (Event α ε)} (h : content ev ≠ []) :
    0 < headLength (dropFailures ev) := by
  induction ev with
  | nil => exact absurd rfl h
  | cons event ev ih =>
    cases event with
    | data first others => exact Nat.succ_pos _
    | fail e => exact ih h

/-- Where no elements arrive, there is no first chunk. -/
theorem dropFailures_eq_nil {ev : List (Event α ε)} (h : content ev = []) : dropFailures ev = [] := by
  induction ev with
  | nil => rfl
  | cons event ev ih =>
    cases event with
    | data first others => cases h
    | fail e => exact ih h

/-- Without failures the first chunk comes first. -/
theorem dropFailures_eq_self {ev : List (Event α ε)} (h : Failures (fun _ => False) ev) :
    dropFailures ev = ev := by
  match ev, h with
  | [], _ => rfl
  | .data first others :: ev, _ => rfl
  | .fail e :: ev, h => exact (h e List.mem_cons_self).elim

/-- Failures with a property have every weaker one. -/
theorem Failures.imp {P Q : ε → Prop} (hPQ : ∀ e, P e → Q e) {ev : List (Event α ε)}
    (h : Failures P ev) : Failures Q ev :=
  fun e he => hPQ e (h e he)

/-- Without failures all elements arrive before the first failure. -/
theorem before_eq_length {ev : List (Event α ε)} (h : Failures (fun _ => False) ev)
    (stops : ε → Bool) : before stops ev = (content ev).length := by
  induction ev with
  | nil => rfl
  | cons event ev ih =>
    cases event with
    | data first others =>
      rw [before, content, List.length_append, List.length_cons, ih h.tail]
    | fail e => exact (h e List.mem_cons_self).elim

end Delivery
