import WifiMcu.Format.Program
import WifiMcu.Format.Splitting

/-!
# FormatString interprets the pieces of its format

The meaning of a format is given piece by piece: a piece outputs characters and
leaves an argument list behind, and a sequence of pieces threads the arguments
from left to right. The loop of `FormatString` computes exactly this meaning of
the one splitting of its format, without reading behind the NUL.
-/

namespace WifiMcu.Format

open Word

/-- The flags as `ParseFlags` leaves them after a run of flag characters. -/
def flagsOf (fs : List Flag) : Flags := fs.foldl Flags.apply {}

section

variable {σ : Type} (P : Platform σ)

/-- A directive takes its sizes, then its conversion takes its value. -/
def Directive.run (d : Directive) (args : σ) : Converted σ :=
  let sizes := d.spec.readSizes P (flagsOf d.spec.flags) args
  convert P d.conversion (flagsOf d.spec.flags) sizes.1 d.spec.modifier.code sizes.2

/-- The characters of a piece, what it adds to the count, and the arguments left over. -/
def Piece.run : Piece → σ → Converted σ
  | .literal c _ _, args => ⟨[c], 1, args⟩
  | .percent, args => ⟨['%'.toUInt8], 1, args⟩
  | .directive d, args => d.run P args

/-- The pieces of a format, from left to right. -/
def runPieces : List Piece → σ → Converted σ
  | [], args => ⟨[], 0, args⟩
  | p :: ps, args =>
    let first := p.run P args
    let others := runPieces ps first.args
    ⟨first.chars ++ others.chars, first.counted + others.counted, others.args⟩

/-- A cut-off directive takes the arguments of its `*`s and outputs nothing. -/
def runTruncated : Option Spec → σ → σ
  | none, args => args
  | some s, args => (s.readSizes P (flagsOf s.flags) args).2

/-- The state in which `FormatString` ends when the memory from the NUL of its
format on is `rest`. -/
def Split.result (s : Split) (args : σ) (rest : List UInt8) : FormatState σ :=
  let r := runPieces P s.pieces args
  { format := rest
    args := runTruncated P s.truncated r.args
    count := wrap32 r.counted
    output := r.chars }

/-- Pieces in sequence output one after the other, on the arguments left over. -/
theorem runPieces_append (ps qs : List Piece) (args : σ) :
    runPieces P (ps ++ qs) args =
      ⟨(runPieces P ps args).chars ++ (runPieces P qs (runPieces P ps args).args).chars,
        (runPieces P ps args).counted + (runPieces P qs (runPieces P ps args).args).counted,
        (runPieces P qs (runPieces P ps args).args).args⟩ := by
  induction ps generalizing args with
  | nil => simp [runPieces]
  | cons p ps ih => simp [runPieces, ih, Int.add_assoc]

/-! ### One piece is one iteration -/

/-- `ParseFlags` takes the flags of a specification. It fails only where the end
of the string follows the flags. -/
theorem parseFlags_spec (s : Spec) {c : UInt8} (rest : List UInt8) (hc : s.absorbs c = false) :
    ∃ more, parseFlags {} (s.bytes ++ c :: rest) = some (more, flagsOf s.flags,
        s.width.bytes ++ (precisionBytes s.precision ++ (s.modifier.bytes ++ c :: rest))) ∧
      (more = false → c = 0 ∧ s.width = .omitted ∧ s.precision = none ∧ s.modifier = .none) := by
  have htail := s.ofByte_head (Spec.stops_cons rest hc)
  have hflags := parseFlags_append s.flags {} _ htail
  cases hsizes : s.width.bytes ++ (precisionBytes s.precision ++ s.modifier.bytes) with
  | nil =>
    refine ⟨decide (c ≠ 0), ?_, fun hmore => ⟨by simpa using hmore, ?_⟩⟩
    · simp only [List.append_eq_nil_iff] at hsizes
      simpa [Spec.bytes, hsizes, flagsOf] using hflags
    · simp only [List.append_eq_nil_iff] at hsizes
      obtain ⟨hwidth, hprecision, hmodifier⟩ := hsizes
      exact ⟨Size.bytes_eq_nil_iff.mp hwidth, precisionBytes_eq_nil_iff.mp hprecision,
        Modifier.bytes_eq_nil_iff.mp hmodifier⟩
  | cons e l =>
    have he : e ∈ s.bytes := by
      rw [Spec.bytes, hsizes]
      simp
    have hlist : s.width.bytes ++ (precisionBytes s.precision ++ (s.modifier.bytes ++ c :: rest)) =
        e :: (l ++ c :: rest) := by
      rw [← List.cons_append, ← hsizes]
      simp
    refine ⟨true, ?_, fun h => by cases h⟩
    rw [hlist] at hflags ⊢
    simpa [Spec.bytes, hlist, flagsOf, (Spec.mem_bytes he).1] using hflags

/-- `ParseSizes` takes the sizes of a specification. It fails only where the end
of the string follows them. -/
theorem parseSizes_spec (s : Spec) {c : UInt8} (rest : List UInt8) (hc : s.absorbs c = false)
    (flags : Flags) (args : σ) :
    ∃ more, parseSizes P flags.padRight flags.padZero (s.width.bytes ++
        (precisionBytes s.precision ++ (s.modifier.bytes ++ c :: rest))) args =
          some (more, (s.readSizes P flags args).1, s.modifier.bytes ++ c :: rest,
            (s.readSizes P flags args).2) ∧
      (more = false → c = 0 ∧ s.modifier = .none) := by
  have hsizes := parseSizes_append P s flags args _
    (s.sizesAbsorb_head (Spec.stops_cons rest hc)) (by simp)
  by_cases hnone : s.modifier = .none
  · rw [hnone] at hsizes ⊢
    exact ⟨decide (c ≠ 0), hsizes, fun hmore => ⟨by simpa using hmore, rfl⟩⟩
  · refine ⟨true, hsizes.trans ?_, fun h => by cases h⟩
    obtain ⟨e, l, hbytes⟩ := List.exists_cons_of_ne_nil (mt Modifier.bytes_eq_nil_iff.mp hnone)
    have hne : e ≠ 0 := by
      rcases Modifier.mem_bytes (hbytes ▸ List.mem_cons_self) with rfl | rfl <;> decide
    simp [hbytes, hne]

/-- `ParseLengthModifier` takes the length modifier of a specification. -/
theorem parseLengthModifier_spec (s : Spec) {c : UInt8} (rest : List UInt8)
    (hc : s.absorbs c = false) :
    parseLengthModifier (s.modifier.bytes ++ c :: rest) =
      some (decide (c ≠ 0), s.modifier.code, c :: rest) := by
  simp only [Spec.absorbs, Bool.or_eq_false_iff] at hc
  exact parseLengthModifier_append s.modifier rest hc.1

/-- A complete directive is one iteration of the loop. -/
theorem formatDirective_directive (d : Directive) (rest : List UInt8) (s : FormatState σ)
    (hformat : s.format = d.spec.bytes ++ d.conversion :: rest) :
    formatDirective P s = some (true,
      { format := rest
        args := (d.run P s.args).args
        count := wrap32 (s.count + (d.run P s.args).counted)
        output := s.output ++ (d.run P s.args).chars }) := by
  obtain ⟨more, hflags, hmore⟩ := parseFlags_spec d.spec rest d.not_absorbed
  obtain ⟨more', hsizes, hmore'⟩ :=
    parseSizes_spec P d.spec rest d.not_absorbed (flagsOf d.spec.flags) s.args
  have hmodifier := parseLengthModifier_spec d.spec rest d.not_absorbed
  obtain rfl : more = true := Bool.of_not_eq_false fun h =>
    d.conversion_ne_nul (hmore h).1
  obtain rfl : more' = true := Bool.of_not_eq_false fun h =>
    d.conversion_ne_nul (hmore' h).1
  simp [formatDirective, hformat, hflags, hsizes, hmodifier, d.conversion_ne_nul, Directive.run]

/-- A cut-off directive ends the loop at the NUL. -/
theorem formatDirective_truncated (spec : Spec) (junk : List UInt8) (s : FormatState σ)
    (hformat : s.format = spec.bytes ++ 0 :: junk) :
    formatDirective P s = some (false,
      { s with
        format := 0 :: junk
        args := (spec.readSizes P (flagsOf spec.flags) s.args).2 }) := by
  obtain ⟨more, hflags, hmore⟩ := parseFlags_spec spec junk spec.absorbs_nul
  obtain ⟨more', hsizes, hmore'⟩ :=
    parseSizes_spec P spec junk spec.absorbs_nul (flagsOf spec.flags) s.args
  have hmodifier := parseLengthModifier_spec spec junk spec.absorbs_nul
  -- the parser that finds nothing of its own before the NUL is the one that fails
  cases more with
  | false =>
    obtain ⟨-, hwidth, hprecision, hnone⟩ := hmore rfl
    rw [hwidth, hprecision, hnone] at hflags
    simp [formatDirective, hformat, hflags, Spec.readSizes, hwidth, hprecision, Size.read,
      Size.bytes, precisionBytes, Modifier.bytes]
  | true =>
    cases more' with
    | false =>
      obtain ⟨-, hnone⟩ := hmore' rfl
      rw [hnone] at hflags hsizes
      simp [formatDirective, hformat, hflags, hsizes]
      rfl
    | true => simp [formatDirective, hformat, hflags, hsizes, hmodifier]

/-- Every complete piece is one iteration of the loop. -/
theorem formatStep_piece (p : Piece) (rest : List UInt8) (s : FormatState σ)
    (hformat : s.format = p.bytes ++ rest) :
    formatStep P s = some (true,
      { format := rest
        args := (p.run P s.args).args
        count := wrap32 (s.count + (p.run P s.args).counted)
        output := s.output ++ (p.run P s.args).chars }) := by
  have hpercent : '%'.toUInt8 ≠ 0 := by decide
  cases p with
  | literal c hnul hne => simp [formatStep, hformat, Piece.bytes, hnul, hne, Piece.run]
  | percent => simp [formatStep, hformat, Piece.bytes, hpercent, Piece.run]
  | directive d =>
    obtain ⟨c, l, hcl⟩ : ∃ c l, d.spec.bytes ++ d.conversion :: rest = c :: l :=
      List.exists_cons_of_ne_nil (by simp)
    have hc : c ≠ '%'.toUInt8 := by
      have hhead := d.head_tail_ne_percent rest
      rw [hcl] at hhead
      simpa using hhead
    have hdirective := formatDirective_directive P d rest
      { s with format := d.spec.bytes ++ d.conversion :: rest } rfl
    rw [hcl] at hdirective
    simp [formatStep, hformat, Piece.bytes, Directive.tail, hpercent, hcl, hc, hdirective,
      Piece.run]

/-- The loop works through complete pieces, whatever follows them. -/
theorem formatLoop_pieces (ps : List Piece) (rest : List UInt8) (args : σ) (n : ℤ)
    (output : List UInt8) :
    formatLoop P ⟨ps.flatMap Piece.bytes ++ rest, args, wrap32 n, output⟩ =
      formatLoop P ⟨rest, (runPieces P ps args).args, wrap32 (n + (runPieces P ps args).counted),
        output ++ (runPieces P ps args).chars⟩ := by
  induction ps generalizing args n output with
  | nil => simp [runPieces]
  | cons p ps ih =>
    have hstep := formatStep_piece P p (ps.flatMap Piece.bytes ++ rest)
      ⟨(p :: ps).flatMap Piece.bytes ++ rest, args, wrap32 n, output⟩ (by simp)
    rw [formatLoop, hstep]
    simp only [wrap32_wrap32_add]
    rw [ih]
    simp [runPieces, Int.add_assoc]

/-- The character after the `%` of a directive that is cut off is not another `%`. -/
theorem Spec.head_nul_ne_percent (s : Spec) (junk : List UInt8) :
    (s.bytes ++ 0 :: junk).head? ≠ some '%'.toUInt8 := by
  cases hempty : s.bytes with
  | nil =>
    rw [List.nil_append, List.head?_cons]
    decide
  | cons d l =>
    have hhead := s.head_bytes_ne_percent
    rw [hempty] at hhead
    simpa using hhead

/-- At the end of its format the loop stops at the NUL, behind which it never looks. -/
theorem formatStep_end (truncated : Option Spec) (junk : List UInt8) (args : σ) (n : ℤ)
    (output : List UInt8) :
    formatStep P ⟨truncatedBytes truncated ++ 0 :: junk, args, n, output⟩ =
      some (false, ⟨0 :: junk, runTruncated P truncated args, n, output⟩) := by
  have hpercent : '%'.toUInt8 ≠ 0 := by decide
  cases truncated with
  | none => simp [formatStep, truncatedBytes, runTruncated]
  | some s =>
    obtain ⟨c, l, hcl⟩ : ∃ c l, s.bytes ++ 0 :: junk = c :: l :=
      List.exists_cons_of_ne_nil (by simp)
    have hc : c ≠ '%'.toUInt8 := by
      have hhead := s.head_nul_ne_percent junk
      rw [hcl] at hhead
      simpa using hhead
    have hdirective := formatDirective_truncated P s junk
      ⟨s.bytes ++ 0 :: junk, args, n, output⟩ rfl
    rw [hcl] at hdirective
    rw [truncatedBytes, List.cons_append, hcl]
    simp [formatStep, hpercent, hc, hdirective, runTruncated]

/-- The loop is over then. -/
theorem formatLoop_end (truncated : Option Spec) (junk : List UInt8) (args : σ) (n : ℤ)
    (output : List UInt8) :
    formatLoop P ⟨truncatedBytes truncated ++ 0 :: junk, args, n, output⟩ =
      some ⟨0 :: junk, runTruncated P truncated args, n, output⟩ := by
  rw [formatLoop, formatStep_end]

/-- `FormatString` on the string that a splitting spells. -/
theorem formatString_split (s : Split) (junk : List UInt8) (args : σ) :
    formatString P (s.bytes ++ 0 :: junk) args = some (s.result P args (0 :: junk)) := by
  have hpieces := formatLoop_pieces P s.pieces (truncatedBytes s.truncated ++ 0 :: junk) args 0 []
  have hzero : wrap32 0 = 0 := by decide
  rw [hzero, Int.zero_add, List.nil_append, formatLoop_end] at hpieces
  simpa [formatString, Split.bytes, Split.result] using hpieces

/-! ### The arguments of a directive -/

/-- The argument list after the argument of a width or precision: one `int` for a `*`. -/
def takeSize (args : σ) : Size → σ
  | .star => (P.vaInt args).2
  | _ => args

/-- The conversions of the `switch` in `FormatString`. -/
def knownConversions : List UInt8 :=
  ['s', 'c', 'd', 'i', 'u', 'o', 'x', 'X', 'f', 'F'].map Char.toUInt8

/-- The argument list after the value of a conversion: one value whose type the
conversion and the modifier determine, and none if the conversion is unknown. -/
def takeValue (c : UInt8) (m : Modifier) (args : σ) : σ :=
  if c = 's'.toUInt8 then (P.vaString args).2
  else if c = 'c'.toUInt8 then (P.vaInt args).2
  else if c = 'f'.toUInt8 ∨ c = 'F'.toUInt8 then (P.vaDouble args).2
  else if c ∈ knownConversions then
    match m with
    | .l => (P.vaLong args).2
    | .ll => (P.vaLongLong args).2
    | _ => (P.vaInt args).2
  else args

/-- Reading the sizes takes one `int` for each `*`, that of the width first. -/
theorem readSizes_args (s : Spec) (flags : Flags) (args : σ) :
    (s.readSizes P flags args).2 =
      (s.precision.elim id (fun p args => takeSize P args p)) (takeSize P args s.width) := by
  have hsize (p : Size) (args : σ) : (p.read P args).2 = takeSize P args p := by cases p <;> rfl
  cases hp : s.precision <;> simp [Spec.readSizes, hp, hsize]

/-- A signed value is one argument. -/
theorem signedValue_args (m : Modifier) (args : σ) :
    (signedValue P m.code args).2 = takeValue P 'd'.toUInt8 m args := by
  cases m <;> rfl

/-- An unsigned value is one argument, taken as a signed one is. -/
theorem unsignedValue_args (m : Modifier) (args : σ) :
    (unsignedValue P m.code args).2 = takeValue P 'd'.toUInt8 m args := by
  cases m <;> rfl

/-- An unknown conversion outputs nothing and leaves the argument list as it is. -/
theorem convert_of_notMem {c : UInt8} (hc : c ∉ knownConversions) (flags : Flags) (sizes : Sizes)
    (modifier : ℤ) (args : σ) : convert P c flags sizes modifier args = ⟨[], 0, args⟩ := by
  simp only [knownConversions, List.map_cons, List.map_nil, List.mem_cons, List.not_mem_nil,
    or_false, not_or] at hc
  obtain ⟨hs, hchar, hd, hi, hu, ho, hx, hX, hf, hF⟩ := hc
  rw [convert, if_neg hs, if_neg hchar, if_neg (not_or.mpr ⟨hd, hi⟩), if_neg hu, if_neg ho,
    if_neg hx, if_neg hX, if_neg (not_or.mpr ⟨hf, hF⟩)]

/-- An unknown conversion takes no argument. -/
theorem takeValue_of_notMem {c : UInt8} (hc : c ∉ knownConversions) (m : Modifier) (args : σ) :
    takeValue P c m args = args := by
  have hne (d : UInt8) (hd : d ∈ knownConversions) : c ≠ d := fun h => hc (h ▸ hd)
  unfold takeValue
  rw [if_neg (hne _ (by decide)), if_neg (hne _ (by decide)),
    if_neg (not_or.mpr ⟨hne _ (by decide), hne _ (by decide)⟩), if_neg hc]

/-- A conversion takes its value from the argument list. -/
theorem convert_args (c : UInt8) (flags : Flags) (sizes : Sizes) (m : Modifier) (args : σ) :
    (convert P c flags sizes m.code args).args = takeValue P c m args := by
  by_cases hc : c ∈ knownConversions
  · simp only [knownConversions, List.map_cons, List.map_nil, List.mem_cons, List.not_mem_nil,
      or_false] at hc
    obtain rfl | rfl | rfl | rfl | rfl | rfl | rfl | rfl | rfl | rfl := hc
    · rfl
    · rfl
    · exact signedValue_args P m args
    · exact signedValue_args P m args
    · exact unsignedValue_args P m args
    · exact unsignedValue_args P m args
    · exact unsignedValue_args P m args
    · exact unsignedValue_args P m args
    · rfl
    · rfl
  · rw [convert_of_notMem P hc, takeValue_of_notMem P hc]

/-- An unknown conversion outputs nothing. -/
theorem convert_unknown {c : UInt8} (hc : c ∉ knownConversions) (flags : Flags) (sizes : Sizes)
    (modifier : ℤ) (args : σ) : (convert P c flags sizes modifier args).chars = [] := by
  rw [convert_of_notMem P hc]

/-- The arguments that a directive leaves: those of its `*`s are taken first, the
one of the width before that of the precision, and then its value. -/
theorem Directive.run_args (d : Directive) (args : σ) :
    (d.run P args).args = takeValue P d.conversion d.spec.modifier
      ((d.spec.precision.elim id (fun p args => takeSize P args p))
        (takeSize P args d.spec.width)) := by
  rw [Directive.run, convert_args, readSizes_args]

/-- **`FormatString` is a total, compositional interpreter of format strings.** Every
iteration that goes on consumes part of the format. Every string has exactly one
splitting. On the memory that holds the string, its NUL and any bytes behind it, none
included, the call returns with its cursor on the NUL: it outputs the concatenation
of what the pieces output, threading the arguments, and nothing for a cut-off
directive or an unknown conversion. A format made of complete pieces followed by
another format acts as the one call after the other. -/
theorem formatString_compositional {f : List UInt8} (hnul : ∀ c ∈ f, c ≠ 0) (args : σ) :
    (∀ s s' : FormatState σ, formatStep P s = some (true, s') →
      s'.format.length < s.format.length) ∧
    (∃! s : Split, s.bytes = f) ∧
    (∀ s : Split, s.bytes = f → ∀ junk, formatString P (f ++ 0 :: junk) args =
      some { format := 0 :: junk
             args := runTruncated P s.truncated (runPieces P s.pieces args).args
             count := wrap32 (runPieces P s.pieces args).counted
             output := (runPieces P s.pieces args).chars }) ∧
    (∀ d : Directive, (d.run P args).args = takeValue P d.conversion d.spec.modifier
        ((d.spec.precision.elim id (fun p args => takeSize P args p))
          (takeSize P args d.spec.width)) ∧
      (d.conversion ∉ knownConversions → (d.run P args).chars = [])) ∧
    (∀ ps : List Piece, ∃ s1 : FormatState σ,
      formatString P (ps.flatMap Piece.bytes ++ [0]) args = some s1 ∧
      ∀ junk, ∃ s2 : FormatState σ, formatString P (f ++ 0 :: junk) s1.args = some s2 ∧
        formatString P (ps.flatMap Piece.bytes ++ f ++ 0 :: junk) args =
          some { s2 with
            count := wrap32 (s1.count + s2.count)
            output := s1.output ++ s2.output }) := by
  refine ⟨fun s s' => formatStep_consumes P, existsUnique_split hnul, ?_, ?_, ?_⟩
  · rintro s rfl junk
    exact formatString_split P s junk args
  · exact fun d => ⟨d.run_args P args, fun hc => convert_unknown P hc _ _ _ _⟩
  · intro ps
    obtain ⟨s, rfl, -⟩ := existsUnique_split hnul
    let first : Split := ⟨ps, none⟩
    have hfirst := formatString_split P first [] args
    simp only [first, Split.bytes, truncatedBytes, List.append_nil] at hfirst
    refine ⟨_, hfirst, fun junk => ⟨_, formatString_split P s junk _, ?_⟩⟩
    let both : Split := ⟨ps ++ s.pieces, s.truncated⟩
    have hbytes : ps.flatMap Piece.bytes ++ s.bytes = both.bytes := by
      simp [both, Split.bytes]
    rw [hbytes, formatString_split]
    simp [both, Split.result, runPieces_append, runTruncated]

end

/-- A literal byte, a directive with a `*`, and one that is cut off: `a%*d%5`. -/
theorem formatString_compositional_mixed :
    ∃! s : Split, s.bytes = ['a', '%', '*', 'd', '%', '5'].map Char.toUInt8 :=
  (formatString_compositional argPlatform
    (f := ['a', '%', '*', 'd', '%', '5'].map Char.toUInt8) (by decide +kernel) []).2.1

end WifiMcu.Format
