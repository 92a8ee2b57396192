import WifiMcu.Format.Parsers
import WifiMcu.Library.Munch

/-!
# Every format string splits in exactly one way

`splitFormat` reads a format into pieces by longest match. It inverts
`Split.bytes` from both sides: what it reads spells the string, and what is
spelled is read back. A string without NUL therefore has exactly one splitting.
-/

namespace WifiMcu.Format

open Munch

/-- The value of a digit character. -/
def digitOf (c : UInt8) : Option (Fin 10) := if isDigit c then some (digitOfByte c) else none

/-- The character of a digit reads as the digit. -/
@[simp] theorem digitOf_digitByte (d : Fin 10) : digitOf (digitByte d) = some d := by
  simp [digitOf]

/-- Only the character of a digit reads as that digit. -/
theorem digitByte_of_digitOf (c : UInt8) (d : Fin 10) (h : digitOf c = some d) :
    digitByte d = c := by
  unfold digitOf at h
  split_ifs at h with hdigit
  obtain rfl := Option.some.inj h
  exact digitByte_digitOfByte hdigit

/-- A character is read as a digit exactly when it passes the digit test. -/
theorem digitOf_eq_none_iff (c : UInt8) : digitOf c = none ↔ isDigit c = false := by
  simp [digitOf]

/-- Read a width, or what follows the `.` of a precision. -/
def readSize : List UInt8 → Size × List UInt8
  | [] => (.omitted, [])
  | c :: rest =>
    if c = '*'.toUInt8 then (.star, rest)
    else match munch digitOf (c :: rest) with
      | ([], rest) => (.omitted, rest)
      | (d :: ds, rest) => (.literal d ds, rest)

/-- Read a precision. -/
def readPrecision : List UInt8 → Option Size × List UInt8
  | [] => (none, [])
  | c :: rest =>
    if c = '.'.toUInt8 then (some (readSize rest).1, (readSize rest).2) else (none, c :: rest)

/-- Read a length modifier. -/
def readModifier (format : List UInt8) : Modifier × List UInt8 :=
  if format.head? = some 'l'.toUInt8 then
    if format.tail.head? = some 'l'.toUInt8 then (.ll, format.tail.tail) else (.l, format.tail)
  else if format.head? = some 'h'.toUInt8 then
    if format.tail.head? = some 'h'.toUInt8 then (.hh, format.tail.tail) else (.h, format.tail)
  else (.none, format)

/-- What follows a size does not continue it. -/
def SizeStops (s : Size) (rest : List UInt8) : Prop :=
  ∀ c, rest.head? = some c → s.absorbs c = false

/-- Reading a size gives it back when nothing continues it. -/
theorem readSize_append (s : Size) {rest : List UInt8} (hstops : SizeStops s rest) :
    readSize (s.bytes ++ rest) = (s, rest) := by
  cases s with
  | omitted =>
    cases rest with
    | nil => rfl
    | cons c rest =>
      obtain ⟨hdigit, hstar⟩ : isDigit c = false ∧ c ≠ '*'.toUInt8 := by
        simpa [Size.absorbs] using hstops c rfl
      have hmunch : munch digitOf (c :: rest) = ([], c :: rest) :=
        munch_of_stops (by rintro a ⟨⟩; exact (digitOf_eq_none_iff c).mpr hdigit)
      simp [Size.bytes, readSize, hstar, hmunch]
  | star => rfl
  | literal d ds =>
    have hmunch := munch_append digitOf_digitByte (d :: ds)
      (fun c hc => (digitOf_eq_none_iff c).mpr (hstops c hc))
    simp only [List.map_cons, List.cons_append] at hmunch
    simp only [Size.bytes, List.cons_append, readSize, if_neg (digitByte_ne_star d), hmunch]

/-- Writing the size that was read restores the list, and nothing continues it. -/
theorem readSize_spec (l : List UInt8) :
    (readSize l).1.bytes ++ (readSize l).2 = l ∧ SizeStops (readSize l).1 (readSize l).2 := by
  cases l with
  | nil => simp [readSize, Size.bytes, SizeStops]
  | cons c rest =>
    by_cases hstar : c = '*'.toUInt8
    · simp [readSize, hstar, Size.bytes, SizeStops, Size.absorbs]
    · have hbytes := map_munch_append digitByte_of_digitOf (c :: rest)
      have hstops := @munch_stops _ _ digitOf (c :: rest)
      simp only [readSize, if_neg hstar]
      cases hmunch : munch digitOf (c :: rest) with
      | mk ds rest' =>
        rw [hmunch] at hbytes hstops
        cases ds with
        | nil =>
          refine ⟨hbytes, fun a ha => ?_⟩
          have hrest : rest' = c :: rest := hbytes
          have hac : c = a := by simpa [hrest] using ha
          subst hac
          simp [Size.absorbs, (digitOf_eq_none_iff _).mp (hstops _ ha), hstar]
        | cons d ds =>
          exact ⟨hbytes, fun a ha => (digitOf_eq_none_iff a).mp (hstops a ha)⟩

/-- Reading a precision gives it back when nothing continues it. -/
theorem readPrecision_append (p : Option Size) {rest : List UInt8}
    (hstops : ∀ c, rest.head? = some c → match p with
      | some s => s.absorbs c = false
      | none => c ≠ '.'.toUInt8) :
    readPrecision (precisionBytes p ++ rest) = (p, rest) := by
  cases p with
  | some s => simp [precisionBytes, readPrecision, readSize_append s hstops]
  | none =>
    cases rest with
    | nil => rfl
    | cons c rest => simp [precisionBytes, readPrecision, hstops c rfl]

/-- Writing the precision that was read restores the list. -/
theorem readPrecision_bytes (l : List UInt8) :
    precisionBytes (readPrecision l).1 ++ (readPrecision l).2 = l := by
  cases l with
  | nil => rfl
  | cons c rest =>
    by_cases hdot : c = '.'.toUInt8
    · simp [readPrecision, hdot, precisionBytes, (readSize_spec rest).1]
    · simp [readPrecision, hdot, precisionBytes]

/-- What follows the precision that was read does not continue it. -/
theorem readPrecision_stops (l : List UInt8) (c : UInt8)
    (hc : (readPrecision l).2.head? = some c) :
    match (readPrecision l).1 with
      | some s => s.absorbs c = false
      | none => c ≠ '.'.toUInt8 ∧ l.head? = some c := by
  cases l with
  | nil => simp [readPrecision] at hc
  | cons b rest =>
    by_cases hdot : b = '.'.toUInt8
    · simp only [readPrecision, if_pos hdot] at hc ⊢
      exact (readSize_spec rest).2 c hc
    · simp only [readPrecision, if_neg hdot] at hc ⊢
      obtain rfl : b = c := by simpa using hc
      exact ⟨hdot, rfl⟩

/-- Reading a length modifier gives it back when nothing continues it. -/
theorem readModifier_append (m : Modifier) {rest : List UInt8}
    (hstops : ∀ c, rest.head? = some c → m.absorbs c = false) :
    readModifier (m.bytes ++ rest) = (m, rest) := by
  have hhl : 'h'.toUInt8 ≠ 'l'.toUInt8 := by decide
  have hhead (c : UInt8) (hc : m.absorbs c = true) : rest.head? ≠ some c := by
    intro h
    rw [hstops c h] at hc
    cases hc
  cases m <;> simp only [Modifier.absorbs] at hhead
  case none => simp [readModifier, Modifier.bytes, hhead]
  case h => simp [readModifier, Modifier.bytes, hhead, hhl]
  case hh => simp [readModifier, Modifier.bytes, hhl]
  case l => simp [readModifier, Modifier.bytes, hhead]
  case ll => simp [readModifier, Modifier.bytes]

/-- Writing the length modifier that was read restores the list. -/
theorem readModifier_bytes (l : List UInt8) :
    (readModifier l).1.bytes ++ (readModifier l).2 = l := by
  unfold readModifier
  split_ifs with hl hll hh hhh
  · exact (congrArg (List.cons _) (List.cons_head?_tail hll)).trans (List.cons_head?_tail hl)
  · exact List.cons_head?_tail hl
  · exact (congrArg (List.cons _) (List.cons_head?_tail hhh)).trans (List.cons_head?_tail hh)
  · exact List.cons_head?_tail hh
  · rfl

/-- What follows the length modifier that was read does not continue it. -/
theorem readModifier_stops (l : List UInt8) (c : UInt8) (hc : (readModifier l).2.head? = some c) :
    (readModifier l).1.absorbs c = false := by
  have hne {l : List UInt8} {b : UInt8} (hhead : l.head? = some c) (h : ¬ l.head? = some b) :
      (c == b) = false := by
    rw [beq_eq_false_iff_ne]
    rintro rfl
    exact h hhead
  unfold readModifier at hc ⊢
  split_ifs at hc ⊢ with hl hll hh hhh
  · rfl
  · exact hne hc hll
  · rfl
  · exact hne hc hhh
  · exact Bool.or_eq_false_iff.mpr ⟨hne hc hh, hne hc hl⟩

/-- A width read after the flags does not begin with `0`. -/
theorem readSize_ne_zero (l : List UInt8) (ds : List (Fin 10)) :
    (readSize (munch Flag.ofByte l).2).1 ≠ .literal 0 ds := by
  intro h
  have hbytes := (readSize_spec (munch Flag.ofByte l).2).1
  rw [h] at hbytes
  have hzero : (munch Flag.ofByte l).2.head? = some '0'.toUInt8 := by rw [← hbytes]; rfl
  have hflag := munch_stops l _ hzero
  revert hflag
  decide

/-- Read a specification. -/
def readSpec (l : List UInt8) : Spec × List UInt8 :=
  let width := readSize (munch Flag.ofByte l).2
  let precision := readPrecision width.2
  let modifier := readModifier precision.2
  (⟨(munch Flag.ofByte l).1, width.1, precision.1, modifier.1, readSize_ne_zero l⟩, modifier.2)

/-- Reading a specification gives it back when nothing continues it. -/
theorem readSpec_append (s : Spec) {rest : List UInt8} (hstops : s.Stops rest) :
    readSpec (s.bytes ++ rest) = (s, rest) := by
  have hmodifier : readModifier (s.modifier.bytes ++ rest) = (s.modifier, rest) := by
    refine readModifier_append _ fun c hc => ?_
    have habsorbs := hstops c hc
    simp only [Spec.absorbs, Bool.or_eq_false_iff] at habsorbs
    exact habsorbs.1
  have hprecision : readPrecision (precisionBytes s.precision ++ (s.modifier.bytes ++ rest)) =
      (s.precision, s.modifier.bytes ++ rest) := by
    refine readPrecision_append _ fun c hc => ?_
    obtain ⟨hsome, hnone⟩ := Spec.precision_stops (s.sizesAbsorb_head hstops c hc)
    cases hp : s.precision with
    | none => exact hnone hp
    | some p => exact hsome p hp
  have hwidth : readSize (s.width.bytes ++ (precisionBytes s.precision ++
      (s.modifier.bytes ++ rest))) =
      (s.width, precisionBytes s.precision ++ (s.modifier.bytes ++ rest)) :=
    readSize_append _ (Spec.width_stops (s.sizesAbsorb_head hstops))
  have hflags := munch_append Flag.ofByte_byte s.flags (s.ofByte_head hstops)
  have hl : s.bytes ++ rest = s.flags.map Flag.byte ++ (s.width.bytes ++
      (precisionBytes s.precision ++ (s.modifier.bytes ++ rest))) := by simp [Spec.bytes]
  simp only [readSpec, hl, hflags, hwidth, hprecision, hmodifier]

/-- Writing the specification that was read restores the list. -/
theorem readSpec_bytes (l : List UInt8) : (readSpec l).1.bytes ++ (readSpec l).2 = l := by
  have hflags := map_munch_append (fun _ _ => Flag.byte_of_ofByte) l
  have hwidth := (readSize_spec (munch Flag.ofByte l).2).1
  have hprecision := readPrecision_bytes (readSize (munch Flag.ofByte l).2).2
  have hmodifier := readModifier_bytes (readPrecision (readSize (munch Flag.ofByte l).2).2).2
  simp only [readSpec, Spec.bytes, List.append_assoc]
  rw [hmodifier, hprecision, hwidth, hflags]

/-- What follows the specification that was read does not continue it. -/
theorem readSpec_stops (l : List UInt8) : (readSpec l).1.Stops (readSpec l).2 := by
  intro c hc
  have hmodifier := readModifier_stops _ c hc
  simp only [Spec.absorbs, Bool.or_eq_false_iff, Bool.and_eq_false_iff]
  refine ⟨hmodifier, ?_⟩
  by_cases hnone : (readSpec l).1.modifier = .none
  swap
  · exact Or.inl (by simpa using hnone)
  right
  -- without a modifier the next character stands behind the precision
  have hrest : (readPrecision (readSize (munch Flag.ofByte l).2).2).2.head? = some c := by
    have hbytes := readModifier_bytes (readPrecision (readSize (munch Flag.ofByte l).2).2).2
    simp only [readSpec] at hnone hc
    rw [hnone] at hbytes
    rw [← hbytes]
    exact hc
  have hprecision := readPrecision_stops _ c hrest
  cases hp : (readPrecision (readSize (munch Flag.ofByte l).2).2).1 with
  | some p =>
    rw [hp] at hprecision
    simpa [readSpec, Spec.sizesAbsorb, hp] using hprecision
  | none =>
    rw [hp] at hprecision
    obtain ⟨hdot, hhead⟩ := hprecision
    have hwidth := (readSize_spec (munch Flag.ofByte l).2).2 c hhead
    simp only [readSpec, Spec.sizesAbsorb, hp, hwidth, Bool.or_false, Bool.or_eq_false_iff,
      beq_eq_false_iff_ne, Bool.and_eq_false_iff]
    refine ⟨hdot, ?_⟩
    by_cases homitted : (readSize (munch Flag.ofByte l).2).1 = .omitted
    · right
      have hbytes := (readSize_spec (munch Flag.ofByte l).2).1
      rw [homitted] at hbytes
      have hflag := munch_stops l c (by rw [← hbytes]; exact hhead)
      simp [hflag]
    · exact Or.inl homitted

/-- Reading a specification never lengthens the list. -/
theorem readSpec_length (l : List UInt8) : (readSpec l).2.length ≤ l.length := by
  conv_rhs => rw [← readSpec_bytes l, List.length_append]
  omega

/-- One more complete piece in front. -/
def Split.cons (p : Piece) (s : Split) : Split := { s with pieces := p :: s.pieces }

/-- The spelling of a splitting with one more piece in front. -/
@[simp] theorem Split.bytes_cons (p : Piece) (s : Split) :
    (Split.cons p s).bytes = p.bytes ++ s.bytes := by
  simp [Split.cons, Split.bytes]

/-- An empty specification has nothing in front of its conversion character. -/
theorem not_percent_of_readSpec {l rest : List UInt8} {s : Spec} {c : UInt8}
    (hread : readSpec l = (s, c :: rest)) (hpercent : l.head? ≠ some '%'.toUInt8) :
    s.bytes = [] → c ≠ '%'.toUInt8 := by
  rintro hempty rfl
  apply hpercent
  have hbytes := readSpec_bytes l
  rw [hread] at hbytes
  simp only [hempty, List.nil_append] at hbytes
  rw [← hbytes]
  rfl

/-- Split a format string, up to its first NUL, by longest match. -/
def splitFormat : List UInt8 → Split
  | [] => ⟨[], none⟩
  | c :: rest =>
    if hnul : c = 0 then ⟨[], none⟩
    else if hpercent : c = '%'.toUInt8 then
      if hdouble : rest.head? = some '%'.toUInt8 then (splitFormat rest.tail).cons .percent
      else match hread : readSpec rest with
        | (spec, []) => ⟨[], some spec⟩
        | (spec, d :: rest') =>
          if hd : d = 0 then ⟨[], some spec⟩
          else (splitFormat rest').cons (.directive
            { spec, conversion := d, conversion_ne_nul := hd
              not_absorbed := by have := readSpec_stops rest d; rw [hread] at this; exact this rfl
              not_percent := not_percent_of_readSpec hread hdouble })
    else (splitFormat rest).cons (.literal c hnul hpercent)
termination_by l => l.length
decreasing_by
  · simp only [List.length_tail, List.length_cons]
    omega
  · have hlength := readSpec_length rest
    rw [hread] at hlength
    simp only [List.length_cons] at hlength ⊢
    omega
  · simp

/-- The splitting of a string without NUL spells the string. -/
theorem bytes_splitFormat {l : List UInt8} (hnul : ∀ c ∈ l, c ≠ 0) :
    (splitFormat l).bytes = l := by
  fun_induction splitFormat l
  case case1 => rfl
  case case2 rest => exact absurd rfl (hnul 0 List.mem_cons_self)
  case case3 rest hdouble _ ih =>
    obtain ⟨rest', rfl⟩ : ∃ rest', rest = '%'.toUInt8 :: rest' := by
      cases rest with
      | nil => simp at hdouble
      | cons c rest' => exact ⟨rest', by rw [Option.some.inj hdouble]⟩
    rw [List.tail_cons] at ih
    rw [Split.bytes_cons, List.tail_cons, ih fun c hc => hnul c (by simp [hc])]
    rfl
  case case4 rest _ spec hread _ =>
    have hbytes := readSpec_bytes rest
    rw [hread, List.append_nil] at hbytes
    rw [← hbytes]
    rfl
  case case5 rest _ spec rest' _ hread =>
    -- the NUL that ends the specification would be one of the string
    have hbytes := readSpec_bytes rest
    rw [hread] at hbytes
    exact absurd rfl (hnul 0 (List.mem_cons_of_mem _ (by rw [← hbytes]; simp)))
  case case6 rest _ spec d rest' hread hd _ ih =>
    have hbytes := readSpec_bytes rest
    rw [hread] at hbytes
    rw [Split.bytes_cons, ih fun c hc => hnul c (List.mem_cons_of_mem _ (by
      rw [← hbytes]
      simp [hc]))]
    simpa [Piece.bytes, Directive.tail] using hbytes
  case case7 c rest _ _ ih =>
    rw [Split.bytes_cons, ih fun c hc => hnul c (List.mem_cons_of_mem _ hc)]
    rfl

/-- A specification contains neither a NUL nor a `%`. -/
theorem Spec.mem_bytes {s : Spec} {c : UInt8} (hc : c ∈ s.bytes) :
    c ≠ 0 ∧ c ≠ '%'.toUInt8 := by
  have hdigit : ∀ d : Fin 10, digitByte d ≠ 0 ∧ digitByte d ≠ '%'.toUInt8 := by decide
  have hsize (p : Size) (hp : c ∈ p.bytes) : c ≠ 0 ∧ c ≠ '%'.toUInt8 := by
    cases p with
    | omitted => simp [Size.bytes] at hp
    | star =>
      obtain rfl : c = '*'.toUInt8 := by simpa [Size.bytes] using hp
      decide
    | literal d ds =>
      obtain rfl | ⟨e, _, rfl⟩ : c = digitByte d ∨ ∃ e ∈ ds, digitByte e = c := by
        simpa [Size.bytes] using hp
      · exact hdigit d
      · exact hdigit e
  simp only [Spec.bytes, List.mem_append, List.mem_map] at hc
  obtain ⟨f, _, rfl⟩ | hwidth | hprecision | hmodifier := hc
  · cases f <;> decide
  · exact hsize _ hwidth
  · cases hp : s.precision with
    | none => simp [hp, precisionBytes] at hprecision
    | some p =>
      obtain rfl | hmem : c = '.'.toUInt8 ∨ c ∈ p.bytes := by
        simpa [hp, precisionBytes] using hprecision
      · decide
      · exact hsize p hmem
  · obtain rfl | rfl := Modifier.mem_bytes hmodifier
    · decide
    · decide

/-- A specification does not begin with a `%`. -/
theorem Spec.head_bytes_ne_percent (s : Spec) : s.bytes.head? ≠ some '%'.toUInt8 :=
  fun h => (Spec.mem_bytes (List.mem_of_mem_head? h)).2 rfl

/-- The characters after the `%` of a directive do not begin with a `%`. -/
theorem Directive.head_tail_ne_percent (d : Directive) (rest : List UInt8) :
    (d.spec.bytes ++ d.conversion :: rest).head? ≠ some '%'.toUInt8 := by
  cases hempty : d.spec.bytes with
  | nil => simpa using d.not_percent hempty
  | cons c l =>
    have hhead := d.spec.head_bytes_ne_percent
    rwa [hempty] at hhead

/-- A cut-off directive is read as such. -/
theorem splitFormat_truncated (s : Spec) :
    splitFormat ('%'.toUInt8 :: s.bytes) = ⟨[], some s⟩ := by
  have hread := readSpec_append s (show s.Stops [] by rintro c ⟨⟩)
  rw [List.append_nil] at hread
  rw [splitFormat, dif_neg (by decide), dif_pos rfl, dif_neg s.head_bytes_ne_percent]
  split
  · next spec heq =>
    rw [hread] at heq
    obtain ⟨rfl, -⟩ := Prod.mk.inj heq
    rfl
  · next spec c rest heq =>
    rw [hread] at heq
    cases (Prod.mk.inj heq).2

/-- A complete directive is read as such. -/
theorem splitFormat_directive (d : Directive) (rest : List UInt8) :
    splitFormat ('%'.toUInt8 :: (d.spec.bytes ++ d.conversion :: rest)) =
      (splitFormat rest).cons (.directive d) := by
  have hread := readSpec_append d.spec (Spec.stops_cons rest d.not_absorbed)
  rw [splitFormat, dif_neg (by decide), dif_pos rfl, dif_neg (d.head_tail_ne_percent rest)]
  split
  · next spec heq =>
    rw [hread] at heq
    cases (Prod.mk.inj heq).2
  · next spec c rest' heq =>
    rw [hread] at heq
    obtain ⟨rfl, hrest⟩ := Prod.mk.inj heq
    obtain ⟨rfl, rfl⟩ := List.cons.inj hrest
    rw [dif_neg d.conversion_ne_nul]

/-- Reading the string that a splitting spells gives the splitting back. -/
theorem splitFormat_bytes (s : Split) : splitFormat s.bytes = s := by
  obtain ⟨pieces, truncated⟩ := s
  induction pieces with
  | nil =>
    cases truncated with
    | none => simp [Split.bytes, truncatedBytes, splitFormat]
    | some s => simpa [Split.bytes, truncatedBytes] using splitFormat_truncated s
  | cons p pieces ih =>
    change splitFormat (Split.cons p ⟨pieces, truncated⟩).bytes = Split.cons p ⟨pieces, truncated⟩
    rw [Split.bytes_cons]
    cases p with
    | literal c hnul hpercent =>
      rw [Piece.bytes, List.singleton_append, splitFormat, dif_neg hnul, dif_neg hpercent, ih]
    | percent =>
      have hnul : '%'.toUInt8 ≠ 0 := by decide
      rw [Piece.bytes, List.cons_append, List.singleton_append, splitFormat, dif_neg hnul,
        dif_pos rfl, dif_pos (by rfl), List.tail_cons, ih]
    | directive d =>
      rw [Piece.bytes, Directive.tail, List.cons_append, List.append_assoc, List.singleton_append,
        splitFormat_directive, ih]

/-- A string without NUL is spelled by exactly one splitting. -/
theorem existsUnique_split {l : List UInt8} (hnul : ∀ c ∈ l, c ≠ 0) :
    ∃! s : Split, s.bytes = l := by
  refine ⟨splitFormat l, bytes_splitFormat hnul, ?_⟩
  rintro s rfl
  exact (splitFormat_bytes s).symm

end WifiMcu.Format
