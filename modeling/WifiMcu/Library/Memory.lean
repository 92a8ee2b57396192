import Mathlib.Data.Nat.Notation
import Mathlib.Logic.Function.Basic
import Mathlib.Tactic.Common

/-!
# Memory and blocks

A memory is a function from addresses to values. Writing a block replaces the
values at consecutive addresses and leaves all the other ones alone. Blocks
written one behind the other are one block, and what has been written can be
read back.
-/

namespace Memory

variable {α : Type*}

/-- Write a block to consecutive addresses. -/
def writeBlock (m : ℕ → α) (start : ℕ) (block : List α) : ℕ → α :=
  fun i => if start ≤ i then (block[i - start]?).getD (m i) else m i

/-- Read a number of values from consecutive addresses. -/
def readBlock (m : ℕ → α) (start : ℕ) : ℕ → List α
  | 0 => []
  | n + 1 => m start :: readBlock m (start + 1) n

/-- A block lies at an address of a memory. -/
def Holds (m : ℕ → α) (start : ℕ) (block : List α) : Prop :=
  readBlock m start block.length = block

/-- Nothing is written below a block. -/
theorem writeBlock_of_lt {m : ℕ → α} {start i : ℕ} (h : i < start) (block : List α) :
    writeBlock m start block i = m i := by
  rw [writeBlock, if_neg (by omega)]

/-- Nothing is written behind a block. -/
theorem writeBlock_of_le {m : ℕ → α} {start i : ℕ} {block : List α}
    (h : start + block.length ≤ i) : writeBlock m start block i = m i := by
  rw [writeBlock, if_pos (by omega), List.getElem?_eq_none (by omega), Option.getD_none]

/-- An element of a block is written to its address. -/
theorem writeBlock_get {m : ℕ → α} {start i : ℕ} {block : List α} (h : i < block.length) :
    writeBlock m start block (start + i) = block.get ⟨i, h⟩ := by
  have hsub : start + i - start = i := by omega
  rw [writeBlock, if_pos (by omega), hsub, List.getElem?_eq_getElem h, Option.getD_some]
  rfl

/-- The empty block changes nothing. -/
@[simp] theorem writeBlock_nil (m : ℕ → α) (start : ℕ) : writeBlock m start [] = m := by
  funext i
  simp [writeBlock]

/-- A block is written by writing its first element and then the other ones. -/
theorem writeBlock_cons (m : ℕ → α) (start : ℕ) (a : α) (block : List α) :
    writeBlock m start (a :: block) =
      writeBlock (Function.update m start a) (start + 1) block := by
  funext i
  rcases Nat.lt_trichotomy i start with hlt | rfl | hgt
  · rw [writeBlock_of_lt hlt, writeBlock_of_lt (by omega), Function.update_of_ne (by omega)]
  · rw [writeBlock_of_lt (Nat.lt_succ_self i), Function.update_self]
    simp [writeBlock]
  · obtain ⟨k, rfl⟩ : ∃ k, i = start + 1 + k := ⟨i - start - 1, by omega⟩
    have h1 : start + 1 + k - start = k + 1 := by omega
    have h2 : start + 1 + k - (start + 1) = k := by omega
    rw [writeBlock, writeBlock, if_pos (by omega), if_pos (by omega), h1, h2,
      List.getElem?_cons_succ, Function.update_of_ne (by omega)]

/-- Two blocks written one behind the other are one block. -/
theorem writeBlock_append (m : ℕ → α) (start : ℕ) (a b : List α) :
    writeBlock (writeBlock m start a) (start + a.length) b = writeBlock m start (a ++ b) := by
  induction a generalizing m start with
  | nil => simp
  | cons c a ih =>
    have hstart : start + (c :: a).length = start + 1 + a.length := by
      rw [List.length_cons]
      omega
    rw [List.cons_append, writeBlock_cons, writeBlock_cons, hstart, ih]

/-- A block of one element is an update. -/
theorem writeBlock_singleton (m : ℕ → α) (start : ℕ) (a : α) :
    writeBlock m start [a] = Function.update m start a := by
  rw [writeBlock_cons, writeBlock_nil]

/-- The number of values that are read. -/
@[simp] theorem readBlock_length (m : ℕ → α) (start n : ℕ) :
    (readBlock m start n).length = n := by
  induction n generalizing start with
  | zero => rfl
  | succ n ih => rw [readBlock, List.length_cons, ih]

/-- Reading one more value reads the one behind the others. -/
theorem readBlock_concat (m : ℕ → α) (start n : ℕ) :
    readBlock m start (n + 1) = readBlock m start n ++ [m (start + n)] := by
  induction n generalizing start with
  | zero => rfl
  | succ n ih =>
    have hlast : start + 1 + n = start + (n + 1) := by omega
    rw [readBlock, ih, readBlock, hlast, List.cons_append]

/-- Values are read in two parts. -/
theorem readBlock_add (m : ℕ → α) (start k n : ℕ) :
    readBlock m start (k + n) = readBlock m start k ++ readBlock m (start + k) n := by
  induction n with
  | zero => exact (List.append_nil _).symm
  | succ n ih =>
    rw [← Nat.add_assoc, readBlock_concat, ih, readBlock_concat, List.append_assoc, Nat.add_assoc]

/-- The first values that are read. -/
theorem take_readBlock {m : ℕ → α} {start k n : ℕ} (h : k ≤ n) :
    (readBlock m start n).take k = readBlock m start k := by
  obtain ⟨l, rfl⟩ := Nat.exists_eq_add_of_le h
  rw [readBlock_add, List.take_left' (readBlock_length m start k)]

/-- A value read from a block lies at one of its addresses. -/
theorem mem_readBlock {m : ℕ → α} {start n : ℕ} {a : α} :
    a ∈ readBlock m start n ↔ ∃ i, start ≤ i ∧ i < start + n ∧ m i = a := by
  induction n with
  | zero =>
    constructor
    · intro h
      cases h
    · rintro ⟨i, hi, hi', -⟩
      omega
  | succ n ih =>
    rw [readBlock_concat, List.mem_append, ih, List.mem_singleton]
    constructor
    · rintro (⟨i, hi, hi', rfl⟩ | rfl)
      · exact ⟨i, hi, by omega, rfl⟩
      · exact ⟨start + n, by omega, by omega, rfl⟩
    · rintro ⟨i, hi, hi', rfl⟩
      by_cases hlast : i = start + n
      · exact Or.inr (by rw [hlast])
      · exact Or.inl ⟨i, hi, by omega, rfl⟩

/-- Only the addresses read matter. -/
theorem readBlock_congr {m m' : ℕ → α} {start n : ℕ}
    (h : ∀ i, start ≤ i → i < start + n → m i = m' i) :
    readBlock m start n = readBlock m' start n := by
  induction n generalizing start with
  | zero => rfl
  | succ n ih =>
    rw [readBlock, readBlock, h start (by omega) (by omega),
      ih fun i hi hi' => h i (by omega) (by omega)]

/-- A block that has been written is read back. -/
theorem readBlock_writeBlock (m : ℕ → α) (start : ℕ) (block : List α) :
    readBlock (writeBlock m start block) start block.length = block := by
  induction block generalizing m start with
  | nil => rfl
  | cons a block ih =>
    rw [List.length_cons, readBlock, writeBlock_cons, ih,
      writeBlock_of_lt (Nat.lt_succ_self start), Function.update_self]

/-- The first one of two blocks is read back. -/
theorem readBlock_writeBlock_append (m : ℕ → α) (start : ℕ) (a b : List α) :
    readBlock (writeBlock m start (a ++ b)) start a.length = a := by
  have hframe : readBlock (writeBlock m start (a ++ b)) start a.length =
      readBlock (writeBlock m start a) start a.length := by
    refine readBlock_congr fun i hi hi' => ?_
    rw [← writeBlock_append, writeBlock_of_lt hi']
  rw [hframe, readBlock_writeBlock]

/-- Nothing lies anywhere. -/
@[simp] theorem holds_nil (m : ℕ → α) (start : ℕ) : Holds m start [] := rfl

/-- A block lies at an address if its first element does and the other ones follow. -/
theorem holds_cons {m : ℕ → α} {start : ℕ} {a : α} {block : List α} :
    Holds m start (a :: block) ↔ m start = a ∧ Holds m (start + 1) block := by
  rw [Holds, Holds, List.length_cons, readBlock, List.cons.injEq]

/-- Two blocks lie one behind the other. -/
theorem holds_append {m : ℕ → α} {start : ℕ} {a b : List α} :
    Holds m start (a ++ b) ↔ Holds m start a ∧ Holds m (start + a.length) b := by
  rw [Holds, List.length_append, readBlock_add]
  constructor
  · intro h
    exact List.append_inj h (readBlock_length m start a.length)
  · rintro ⟨ha, hb⟩
    rw [ha, hb]

/-- A block that has been written lies there. -/
theorem holds_writeBlock (m : ℕ → α) (start : ℕ) (block : List α) :
    Holds (writeBlock m start block) start block :=
  readBlock_writeBlock m start block

end Memory
