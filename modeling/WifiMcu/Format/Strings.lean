import WifiMcu.Format.Output
import Mathlib.Data.List.TakeWhile

/-!
# The bytes that `OutputString` reads

The argument of `%s` may be an array without a NUL, if the precision says how many of its
bytes are to be output. This file follows `OutputString` through the bytes that can be read
from the pointer on, with the indices that it reads.
-/

namespace WifiMcu.Format

open Word

/-- An argument of `%s`: the bytes that can be read from the pointer on. They contain a NUL,
or as many bytes as the precision demands. -/
structure StringArg (precision : ℤ) where
  bytes : List UInt8
  length_lt : bytes.length < 2147483648
  readable : 0 ∈ bytes ∨ (0 ≤ precision ∧ precision ≤ bytes.length)

/-- The loop `while(*end) end++`, from index `i` on: where `end` stops and the indices that
are read. Reading behind the last byte yields `none`. -/
def findEnd (i : ℕ) : List UInt8 → Option (ℕ × List ℕ)
  | [] => none
  | c :: rest =>
    if c ≠ 0 then (findEnd (i + 1) rest).map fun (stop, reads) => (stop, i :: reads)
    else some (i, [i])

/-- The printing loop, from index `i` on: the characters and the indices that are read. The
null pointer `stringend` is `none`. -/
def printBytes (stringEnd : Option ℕ) (i : ℕ) : List UInt8 → Option (List UInt8 × List ℕ)
  | [] => none
  | c :: rest =>
    if c ≠ 0 ∧ stringEnd ≠ some i then
      (printBytes stringEnd (i + 1) rest).map fun (text, reads) => (c :: text, i :: reads)
    else some ([], [i])

/-- The padding on the left, and the indices that are read to compute it. -/
def padLeft (bytes : List UInt8) (padRight padZero : Bool) (width precision : ℤ) :
    Option (List UInt8 × List ℕ) :=
  if 0 < width ∧ padRight = false then
    (findEnd 0 bytes).map fun (stop, reads) =>
      let length := wrap32 stop
      let length := if 0 ≤ precision ∧ precision < length then precision else length
      (repeatChar (if padZero then '0' else ' ') (wrap32 (width - length)), reads)
  else some ([], [])

/-- `OutputString` on the bytes that can be read, with the indices that it reads. -/
def outputStringArg (bytes : List UInt8) (padRight padZero : Bool) (width precision : ℤ) :
    Option (Emitted × List ℕ) := do
  let (left, reads) ← padLeft bytes padRight padZero width precision
  let stringEnd := if 0 ≤ precision then some precision.toNat else none
  let (text, reads') ← printBytes stringEnd 0 bytes
  let count := wrap32 (left.length + text.length)
  let e : Emitted :=
    { chars := left ++ text ++ repeatChar ' ' (width - count)
      count := max count width }
  return (e, reads ++ reads')

/-- The bytes that `%s` outputs: those before the NUL, cut to the precision. -/
def shownText (bytes : List UInt8) (precision : ℤ) : List UInt8 :=
  let string := bytes.takeWhile (· ≠ 0)
  if precision < 0 then string else string.take precision.toNat

/-- The output in a field: the text with its padding. -/
def fieldOutput (text : List UInt8) (padRight padZero : Bool) (width : ℤ) : Emitted where
  chars :=
    if padRight then text ++ repeatChar ' ' (width - text.length)
    else repeatChar (if padZero then '0' else ' ') (width - text.length) ++ text
  count := max width text.length

/-- A read honours the precision and the NUL. -/
def ReadAllowed (bytes : List UInt8) (precision : ℤ) (i : ℕ) : Prop :=
  (0 ≤ precision → (i : ℤ) < precision) ∧ 0 ∉ bytes.take i

/-- `OutputString` honours its precision, in what it outputs and in what it reads. -/
def HonoursPrecision (bytes : List UInt8) (padRight padZero : Bool) (width precision : ℤ) : Prop :=
  ∃ reads, outputStringArg bytes padRight padZero width precision =
      some (fieldOutput (shownText bytes precision) padRight padZero width, reads) ∧
    ∀ i ∈ reads, ReadAllowed bytes precision i

/-! ### The output -/

/-- The printing loop stops at the end of the string or of the precision. -/
theorem copyString_eq (limit : Option ℕ) {string : List UInt8} (h : 0 ∉ string) :
    copyString limit string = limit.elim string fun n => string.take n := by
  induction string generalizing limit with
  | nil => cases limit <;> simp [copyString]
  | cons c string ih =>
    have hc : c ≠ 0 := fun hzero => h (by simp [hzero])
    have htail : 0 ∉ string := fun hmem => h (List.mem_cons_of_mem c hmem)
    rcases limit with _ | _ | n
    · simp [copyString, hc, ih _ htail]
    · simp [copyString]
    · simp [copyString, hc, ih _ htail]

/-- A string without a NUL ends where its bytes do. -/
theorem takeWhile_of_not_mem {string : List UInt8} (h : 0 ∉ string) :
    string.takeWhile (· ≠ 0) = string :=
  List.takeWhile_eq_self_iff.mpr fun _ hc => decide_eq_true fun hzero => h (hzero ▸ hc)

/-- The text is not longer than the string. -/
theorem length_shownText_le (bytes : List UInt8) (precision : ℤ) :
    (shownText bytes precision).length ≤ bytes.length := by
  have hle : (bytes.takeWhile (· ≠ 0)).length ≤ bytes.length :=
    (List.takeWhile_prefix _).length_le
  rw [shownText]
  split_ifs
  · exact hle
  · rw [List.length_take]
    omega

/-- `OutputString` outputs its text in a field and returns the length of the field. -/
theorem outputString_eq {string : List UInt8} (h : 0 ∉ string)
    (hlength : string.length < 2147483648) (padRight padZero : Bool) {width : ℤ}
    (hwidth : width < 2147483648) (precision : ℤ) :
    outputString string padRight padZero width precision =
      fieldOutput (shownText string precision) padRight padZero width := by
  have hle := length_shownText_le string precision
  have hwrap : wrap32 (string.length : ℤ) = string.length :=
    wrap32_of_range (by omega) (by omega)
  have htext : copyString (if 0 ≤ precision then some precision.toNat else none) string =
      shownText string precision := by
    rw [copyString_eq _ h, shownText, takeWhile_of_not_mem h]
    split_ifs
    · omega
    · rfl
    · rfl
    · omega
  have hmeasured : (if 0 ≤ precision ∧ precision < string.length then precision
      else (string.length : ℤ)) = (shownText string precision).length := by
    rw [shownText, takeWhile_of_not_mem h]
    split_ifs
    · omega
    · rw [List.length_take]
      omega
    · rfl
    · rw [List.length_take]
      omega
  rw [outputString, takeWhile_of_not_mem h, hwrap, hmeasured, htext, fieldOutput]
  generalize shownText string precision = text at *
  by_cases hleft : 0 < width ∧ padRight = false
  · have hpad : wrap32 (width - text.length) = width - text.length :=
      wrap32_of_range (by omega) (by omega)
    have hcount : wrap32 ((repeatChar (if padZero then '0' else ' ')
        (width - text.length)).length + text.length) = max width text.length := by
      rw [repeatChar, List.length_replicate, wrap32_of_range (by omega) (by omega)]
      omega
    have hright : repeatChar ' ' (width - max width text.length) = [] := by
      rw [repeatChar, Int.toNat_of_nonpos (by omega), List.replicate_zero]
    rw [if_pos hleft, hpad, hcount, hright, List.append_nil, hleft.2, if_neg Bool.false_ne_true,
      Int.max_eq_left (Int.le_max_left width _)]
  · have hcount : wrap32 (([] : List UInt8).length + text.length) = text.length := by
      rw [List.length_nil, wrap32_of_range (by omega) (by omega)]
      omega
    rw [if_neg hleft, hcount, List.nil_append, Int.max_comm]
    cases padRight with
    | true => rfl
    | false =>
      have hnone : (width - text.length).toNat = 0 := by
        have hwidth' : ¬ 0 < width := fun hpos => hleft ⟨hpos, rfl⟩
        omega
      simp [repeatChar, hnone]

/-! ### The bytes that are read -/

/-- The printing loop passes over bytes other than NUL that come before its end. -/
theorem printBytes_append {stringEnd : Option ℕ} {s : List UInt8} (hs : 0 ∉ s) (i : ℕ)
    (hend : ∀ p, stringEnd = some p → i + s.length ≤ p) (tail : List UInt8) :
    printBytes stringEnd i (s ++ tail) = (printBytes stringEnd (i + s.length) tail).map
      fun (text, reads) => (s ++ text, List.range' i s.length ++ reads) := by
  induction s generalizing i with
  | nil => simp
  | cons c s ih =>
    have hc : c ≠ 0 := fun hzero => hs (by simp [hzero])
    have hcontinues : stringEnd ≠ some i := fun heq => by
      have hle := hend i heq
      rw [List.length_cons] at hle
      omega
    have hlength : i + (c :: s).length = i + 1 + s.length := by
      rw [List.length_cons]
      omega
    rw [List.cons_append, printBytes, if_pos ⟨hc, hcontinues⟩, hlength,
      ih (fun hmem => hs (List.mem_cons_of_mem c hmem)) (i + 1)
        (fun p hp => hlength ▸ hend p hp), Option.map_map]
    rfl

/-- The loop reads the byte behind the precision, if it comes so far. -/
theorem printBytes_limited {s : List UInt8} (hs : 0 ∉ s) (rest : List UInt8) :
    printBytes (some s.length) 0 (s ++ rest) = none ∨
      ∃ text reads, printBytes (some s.length) 0 (s ++ rest) = some (text, reads) ∧
        s.length ∈ reads := by
  rw [printBytes_append hs 0 (fun p hp => by simp [Option.some.inj hp]), Nat.zero_add]
  cases rest with
  | nil => exact Or.inl rfl
  | cons c rest =>
    right
    rw [printBytes, if_neg fun h => h.2 rfl]
    exact ⟨_, _, rfl, by simp⟩

/-- On a terminated string the loop reads up to the NUL at most. -/
theorem printBytes_terminated {stringEnd : Option ℕ} {s : List UInt8} (hs : 0 ∉ s) (i : ℕ)
    (hend : ∀ p, stringEnd = some p → i ≤ p) (rest : List UInt8) :
    ∃ reads, (∀ j ∈ reads, j ≤ i + s.length) ∧ printBytes stringEnd i (s ++ 0 :: rest) =
      some (copyString (stringEnd.map (· - i)) s, reads) := by
  induction s generalizing i with
  | nil =>
    refine ⟨[i], by simp, ?_⟩
    rw [List.nil_append, printBytes, if_neg fun h => h.1 rfl]
    cases stringEnd <;> rfl
  | cons c s ih =>
    have hc : c ≠ 0 := fun hzero => hs (by simp [hzero])
    rw [List.cons_append, printBytes, copyString]
    by_cases hstop : stringEnd = some i
    · refine ⟨[i], by simp, ?_⟩
      rw [if_neg fun h => h.2 hstop, hstop, Option.map_some, Nat.sub_self,
        if_neg fun h => h.2 rfl]
    · have hend' : ∀ p, stringEnd = some p → i + 1 ≤ p := fun p hp => by
        have hle := hend p hp
        have hne : p ≠ i := fun heq => hstop (heq ▸ hp)
        omega
      obtain ⟨reads, hreads, heq⟩ :=
        ih (fun hmem => hs (List.mem_cons_of_mem c hmem)) (i + 1) hend'
      have hlimit : stringEnd.map (· - i) ≠ some 0 := by
        intro hzero
        obtain ⟨p, hp, hpi⟩ := Option.map_eq_some_iff.mp hzero
        have hle := hend' p hp
        omega
      refine ⟨i :: reads, ?_, ?_⟩
      · rw [List.forall_mem_cons, List.length_cons]
        exact ⟨by omega, fun j hj => by have := hreads j hj; omega⟩
      · have hshift : (stringEnd.map (· - i)).map (· - 1) = stringEnd.map (· - (i + 1)) := by
          rw [Option.map_map]
          rfl
        rw [if_pos ⟨hc, hstop⟩, if_pos ⟨hc, hlimit⟩, heq, hshift]
        rfl

/-- The search for the end reads what the printing loop reads without a precision. -/
theorem findEnd_eq (i : ℕ) (bytes : List UInt8) :
    findEnd i bytes =
      (printBytes none i bytes).map fun (text, reads) => (i + text.length, reads) := by
  induction bytes generalizing i with
  | nil => rfl
  | cons c rest ih =>
    rw [findEnd, printBytes]
    by_cases hc : c = 0
    · rw [if_neg (not_not.mpr hc), if_neg fun h => h.1 hc]
      rfl
    · rw [if_pos hc, if_pos ⟨hc, by simp⟩, ih, Option.map_map, Option.map_map]
      congr 1
      funext ⟨text, reads⟩
      simp only [Function.comp_apply, List.length_cons]
      congr 1
      omega

/-- **Terminated strings.** `OutputString` outputs what it does for the bytes before the NUL,
and it does not read behind the NUL. -/
theorem outputStringArg_terminated {s : List UInt8} (hs : 0 ∉ s) (rest : List UInt8)
    (padRight padZero : Bool) (width precision : ℤ) :
    ∃ reads, (∀ i ∈ reads, i ≤ s.length) ∧
      outputStringArg (s ++ 0 :: rest) padRight padZero width precision =
        some (outputString s padRight padZero width precision, reads) := by
  obtain ⟨reads, hreads, hprint⟩ := @printBytes_terminated
    (if 0 ≤ precision then some precision.toNat else none) s hs 0 (fun p _ => Nat.zero_le p) rest
  obtain ⟨reads', hreads', hfind⟩ := @printBytes_terminated none s hs 0 (fun p hp => by cases hp)
    rest
  have hlimit (o : Option ℕ) : o.map (· - 0) = o := by cases o <;> rfl
  rw [Nat.zero_add] at hreads hreads'
  rw [hlimit] at hprint
  rw [Option.map_none, copyString_eq _ hs] at hfind
  rw [outputStringArg, padLeft, findEnd_eq, hfind, outputString, takeWhile_of_not_mem hs]
  by_cases hleft : 0 < width ∧ padRight = false
  · refine ⟨reads' ++ reads, fun i hi => ?_, ?_⟩
    · exact (List.mem_append.mp hi).elim (hreads' i) (hreads i)
    · simp only [if_pos hleft, hprint]
      simp
  · refine ⟨reads, hreads, ?_⟩
    simp only [if_neg hleft, hprint]
    simp

/-- The printing loop is part of a call. -/
theorem printBytes_of_outputStringArg {bytes : List UInt8} {padRight padZero : Bool}
    {width precision : ℤ} {e : Emitted} {reads : List ℕ}
    (h : outputStringArg bytes padRight padZero width precision = some (e, reads)) :
    ∃ text reads', printBytes (if 0 ≤ precision then some precision.toNat else none) 0 bytes =
      some (text, reads') ∧ ∀ i ∈ reads', i ∈ reads := by
  simp only [outputStringArg, Option.bind_eq_bind, Option.bind_eq_some_iff] at h
  obtain ⟨⟨left, before⟩, -, ⟨text, reads'⟩, hprint, heq⟩ := h
  obtain ⟨-, rfl⟩ := Prod.mk.inj (Option.some.inj heq)
  exact ⟨text, reads', hprint, fun i hi => List.mem_append_right before hi⟩

/-! ### The precision of a string -/

/-- Without a NUL before the end of the precision, the argument is that long. -/
theorem StringArg.toNat_le {precision : ℤ} (arg : StringArg precision)
    (h : 0 ∉ arg.bytes.take precision.toNat) : precision.toNat ≤ arg.bytes.length := by
  rcases arg.readable with hnul | hlimited
  · by_contra hlong
    rw [List.take_of_length_le (by omega)] at h
    exact h hnul
  · omega

/-- **The precision of `%s`** is honoured exactly if it is negative or the string has ended
before it. Otherwise the loop reads the byte behind the precision before it stops. -/
theorem honoursPrecision_iff {precision : ℤ} (arg : StringArg precision)
    (padRight padZero : Bool) {width : ℤ} (hwidth : width < 2147483648) :
    HonoursPrecision arg.bytes padRight padZero width precision ↔
      precision < 0 ∨ 0 ∈ arg.bytes.take precision.toNat := by
  by_cases hends : precision < 0 ∨ 0 ∈ arg.bytes.take precision.toNat
  · refine iff_of_true ?_ hends
    have hnul : 0 ∈ arg.bytes := by
      rcases hends with hneg | hmem
      · exact arg.readable.resolve_right fun hlimited => by omega
      · exact List.mem_of_mem_take hmem
    obtain ⟨s, rest, hbytes, hs⟩ := List.eq_append_cons_of_mem hnul
    have hlength := arg.length_lt
    rw [hbytes] at hends hlength ⊢
    rw [List.length_append] at hlength
    obtain ⟨reads, hreads, heq⟩ := outputStringArg_terminated hs rest padRight padZero width precision
    have hshown : shownText (s ++ 0 :: rest) precision = shownText s precision := by
      rw [shownText, shownText, takeWhile_of_not_mem hs, List.takeWhile_append_of_pos]
      · simp
      · exact fun _ hc => decide_eq_true fun hzero => hs (hzero ▸ hc)
    refine ⟨reads, ?_, fun i hi => ⟨fun hpos => ?_, ?_⟩⟩
    · rw [heq, outputString_eq hs (by omega) padRight padZero hwidth, hshown]
    · -- the NUL comes before the end of the precision
      have hle := hreads i hi
      by_contra hlong
      have hmem := hends.resolve_left (by omega)
      rw [List.take_append_of_le_length (by omega)] at hmem
      exact hs (List.mem_of_mem_take hmem)
    · rw [List.take_append_of_le_length (hreads i hi)]
      exact fun hmem => hs (List.mem_of_mem_take hmem)
  · refine iff_of_false ?_ hends
    rintro ⟨reads, heq, hreads⟩
    rw [not_or, Int.not_lt] at hends
    obtain ⟨text, reads', hprint, hsub⟩ := printBytes_of_outputStringArg heq
    have hlength : (arg.bytes.take precision.toNat).length = precision.toNat :=
      List.length_take_of_le (arg.toNat_le hends.2)
    have hlimited := printBytes_limited hends.2 (arg.bytes.drop precision.toNat)
    rw [List.take_append_drop, hlength] at hlimited
    rw [if_pos hends.1] at hprint
    rw [hprint] at hlimited
    rcases hlimited with hnone | ⟨text', reads'', heq', hmem⟩
    · cases hnone
    · obtain ⟨-, rfl⟩ := Prod.mk.inj (Option.some.inj heq')
      have hallowed := (hreads _ (hsub _ hmem)).1 hends.1
      omega

/-- `"%5.2s"` of `"a"`. -/
theorem honoursPrecision_iff_short :
    HonoursPrecision ['a'.toUInt8, 0] false false 5 2 :=
  (honoursPrecision_iff (⟨['a'.toUInt8, 0], by decide, by decide⟩ : StringArg 2) false false
    (by decide)).mpr (by decide)

/-- `"%.2s"` of an array of two bytes. -/
theorem not_honoursPrecision :
    ¬ ∀ (precision : ℤ) (arg : StringArg precision) (padRight padZero : Bool) (width : ℤ),
      0 ≤ width → width < 2147483648 →
        HonoursPrecision arg.bytes padRight padZero width precision := by
  intro hall
  obtain ⟨reads, heq, -⟩ :=
    hall 2 ⟨['a'.toUInt8, 'b'.toUInt8], by decide, by decide⟩ false false 0 (by decide) (by decide)
  revert heq
  have hnone : outputStringArg ['a'.toUInt8, 'b'.toUInt8] false false 0 2 = none := by decide
  rw [hnone]
  exact nofun

end WifiMcu.Format
