/-
Words that begin with a digit.

A word that stands alone on a line is one lexeme, whatever lines are before and behind it
(`Slot.readsAs_word`): its characters separate nothing, since no character of a word is white
space or a delimiter (`goesOn_of_isWordPart`), and carriage returns at the end of the line are
white space. So what such a line tells is what the word is classified as.

Digits alone are an integer, and reading them stops as soon as the limit is exceeded. That is a
matter of speed: the number is the one that all digits have, and it is compared with the limit of
the language, not with that of a wider machine number (`readDecimal_filter`). A word that begins
with a digit and does not consist of digits begins no name and is no keyword.
-/
import Jack.Proofs.Continuation
import Jack.Proofs.Printing

set_option autoImplicit false

namespace Jack

/-! ## Characters of words -/

/-- No character that separates words is part of one. -/
theorem isWordPart_of_isWhiteSpace {c : Char} (hspace : Text.isWhiteSpace c = true) :
    Text.isWordPart c = false := by
  -- the table of white space is short enough to be gone through
  have hall : Text.whiteSpaceRanges.all (fun range =>
      (List.range' range.1 (range.2 + 1 - range.1)).all fun code =>
        !Text.isWordPart (Char.ofNat code)) = true := by
    decide +kernel
  obtain ⟨range, hrange, hlow, hhigh⟩ :=
    (Text.Ranges.contains_iff Text.whiteSpaceRanges_ascending c.toNat).1 hspace
  have hcode : c.toNat ∈ List.range' range.1 (range.2 + 1 - range.1) := by
    rw [List.mem_range'_1]
    omega
  have hpart := List.all_eq_true.1 (List.all_eq_true.1 hall range hrange) c.toNat hcode
  rwa [Char.ofNat_toNat, Bool.not_eq_true'] at hpart

theorem isWordPart_of_isDelimiter {c : Char} (hc : isDelimiter c = true) :
    Text.isWordPart c = false := by
  have hall : delimiters.all (fun c => !Text.isWordPart c) = true := by decide +kernel
  have hpart := List.all_eq_true.1 hall c (by simpa [isDelimiter] using hc)
  rwa [Bool.not_eq_true'] at hpart

/-- Every character of words goes on with a word. -/
theorem goesOn_of_isWordPart {c : Char} (hc : Text.isWordPart c = true) : GoesOn c where
  part := hc
  space := by
    by_contra hspace
    rw [isWordPart_of_isWhiteSpace (by simpa using hspace)] at hc
    cases hc
  delimiter := by
    by_contra hdelimiter
    rw [isWordPart_of_isDelimiter (by simpa using hdelimiter)] at hc
    cases hc

/-! ## Lines with one word -/

open Lexeme (scanFrom)

/-- White space in code leads nowhere. -/
theorem scanFrom_spaces {spaces : List Char} (hspaces : ∀ c ∈ spaces, Text.isWhiteSpace c = true)
    (found : List (List Char)) (rest : List Char) :
    scanFrom (.code []) found (spaces ++ rest) = scanFrom (.code []) found rest := by
  induction spaces with
  | nil => rfl
  | cons c spaces ih =>
    obtain ⟨hc, hothers⟩ := List.forall_mem_cons.1 hspaces
    obtain ⟨hquote, hslash, -⟩ := Lexeme.space_plain hc
    rw [List.cons_append, scanFrom_code_plain (fun h => absurd h hslash), if_neg hquote, if_pos hc,
      flush_nil, ih hothers]

/-- A word and the white space around it are one lexeme. -/
theorem scanLine_word {left word right : List Char}
    (hleft : ∀ c ∈ left, Text.isWhiteSpace c = true) (hword : ∀ c ∈ word, GoesOn c)
    (hne : word ≠ []) (hright : ∀ c ∈ right, Text.isWhiteSpace c = true) :
    Lexeme.scanLine false (left ++ (word ++ right)) = .ok ⟨[word], false⟩ := by
  have hends : EndsWord right := fun c hc => .inr (.inl (hright c (List.mem_of_mem_head? hc)))
  have hlast := scanFrom_spaces hright [word] []
  rw [List.append_nil] at hlast
  rw [Lexeme.scanLine, if_neg Bool.false_ne_true, scanFrom_spaces hleft,
    scanFrom_word_token hword hne hends, hlast]
  rfl

namespace Source

theorem lineFeed_not_mem_encoded {line : List Char} (hline : '\n' ∉ line) :
    lineFeed ∉ encoded line := by
  intro hmem
  obtain ⟨c, hc, hbyte⟩ := List.mem_flatMap.1 hmem
  refine lineFeed_not_mem_utf8EncodeChar ?_ hbyte
  rintro rfl
  exact hline hc

/-- A line at the beginning of some bytes. -/
theorem ofBytes_line {line : List Char} (hline : '\n' ∉ line) (hne : line ≠ [])
    {behind : List UInt8} (hbehind : ∀ byte ∈ behind.head?, byte = lineFeed) :
    ofBytes (encoded line ++ behind) = .text (trimReturns line) :: ofBytes behind.tail := by
  have hbytes : encoded line ≠ [] := fun h => hne (encoded_eq_nil_iff.1 h)
  rw [ofBytes, cutLines_append (lineFeed_not_mem_encoded hline), List.append_nil]
  cases behind with
  | nil => simp [cutLines, hbytes, ofBytes, decodeLine_encoded]
  | cons byte behind =>
    rw [hbehind byte rfl, cutLines, if_pos rfl, cutLines_lines, List.reverse_reverse,
      List.reverse_singleton, List.map_append, List.map_singleton, decodeLine_encoded]
    rfl

/-- Whole lines stay in front. -/
theorem ofBytes_append {before : List UInt8}
    (hbefore : ∀ byte ∈ before.getLast?, byte = lineFeed) (behind : List UInt8) :
    ofBytes (before ++ behind) = ofBytes before ++ ofBytes behind := by
  induction before using List.reverseRecOn with
  | nil => rfl
  | append_singleton first byte ih =>
    rw [hbefore byte List.getLast?_concat, List.append_assoc, List.singleton_append,
      ofBytes_append_feed]

end Source

namespace Lexer

/-- A slot for a word on a line of its own: the lines before it, which leave no comment open, the
lines behind it, and the white space around it. -/
structure Slot where
  before : List UInt8
  left : List Char
  right : List Char
  behind : List UInt8
  begins : ∀ byte ∈ before.getLast?, byte = Source.lineFeed
  ends : ∀ byte ∈ behind.head?, byte = Source.lineFeed
  blank : ∀ c ∈ left ++ right, Text.isWhiteSpace c = true ∧ c ≠ '\n'
  code : (drain (ofBytes before)).2.inComment = false

namespace Slot

/-- The source with a word put in the slot. -/
def bytes (slot : Slot) (word : List Char) : List UInt8 :=
  slot.before ++ (encoded (slot.left ++ (word ++ slot.right)) ++ slot.behind)

/-- The number of the line of a slot. -/
def line (slot : Slot) : Nat := numberedLines (Source.ofBytes slot.before) + 1

/-- A word tells one thing in a slot. The lines before it tell what they tell alone, and so do
those behind it, further down. -/
def ReadsAs (slot : Slot) (word : List Char) (event : Nat → Event) : Prop :=
  told (ofBytes (slot.bytes word)) =
    told (ofBytes slot.before) ++ event slot.line ::
      (told (ofBytes slot.behind.tail)).map (Event.movedDown slot.line)

/-- The source with a word is the lines before it, the line of the word, and those behind it. -/
theorem ofBytes_bytes (slot : Slot) {word : List Char} (hword : ∀ c ∈ word, GoesOn c)
    (hne : word ≠ []) :
    Source.ofBytes (slot.bytes word) = Source.ofBytes slot.before ++
      .text (Source.trimReturns (slot.left ++ (word ++ slot.right))) ::
        Source.ofBytes slot.behind.tail := by
  -- neither the word nor what is around it ends the line
  have hfeed : '\n' ∉ slot.left ++ (word ++ slot.right) := by
    have hspace : ∀ {c}, c ∈ slot.left ++ slot.right → c ≠ '\n' := fun hc => (slot.blank _ hc).2
    simp only [List.mem_append, not_or]
    refine ⟨fun hmem => ?_, fun hmem => ?_, fun hmem => ?_⟩
    · exact hspace (List.mem_append_left _ hmem) rfl
    · exact absurd (hword _ hmem) (by decide +kernel)
    · exact hspace (List.mem_append_right _ hmem) rfl
  have hline : slot.left ++ (word ++ slot.right) ≠ [] := by simp [hne]
  rw [bytes, Source.ofBytes_append slot.begins, Source.ofBytes_line hfeed hline slot.ends]

/-- **A word alone on a line.** It is one lexeme, with the number of the line. -/
theorem readsAs_word (slot : Slot) {word : List Char}
    (hword : ∀ c ∈ word, Text.isWordPart c = true) (hne : word ≠ []) :
    slot.ReadsAs word fun line => Lexeme.event ⟨line, word⟩ := by
  have hgoes : ∀ c ∈ word, GoesOn c := fun c hc => goesOn_of_isWordPart (hword c hc)
  have hscan : Lexeme.scanLine false
      (Source.trimReturns (slot.left ++ (word ++ slot.right))) = .ok ⟨[word], false⟩ := by
    rw [Lexeme.scanLine, Lexeme.scanFrom_trimReturns]
    apply scanLine_word _ hgoes hne
    · exact fun c hc => (slot.blank c (List.mem_append_right _ hc)).1
    · exact fun c hc => (slot.blank c (List.mem_append_left _ hc)).1
  -- the line begins in code, as the first line of a source does
  have hcode : commentAfter false (Source.ofBytes slot.before) = false := by
    rw [← inComment_drain]
    exact slot.code
  rw [ReadsAs, told_ofBytes, told_ofBytes, told_ofBytes, slot.ofBytes_bytes hgoes hne, events,
    eventsFrom_append, hcode, eventsFrom_text, hscan, lineEvents, events, events, ← eventsFrom_add,
    Nat.zero_add, Nat.zero_add]
  rfl

end Slot

end Lexer

/-! ## Numbers -/

namespace Lexeme

/-- Digits that are read with a wider limit, and then compared, are read as with the limit. -/
theorem readDecimal_filter {limit wider : Nat} (hlimit : limit ≤ wider) (value : Nat)
    (digits : List Char) :
    (readDecimal wider value digits).filter (· ≤ limit) = readDecimal limit value digits := by
  rw [readDecimal_eq, readDecimal_eq]
  by_cases hvalue : Nat.ofDigitChars 10 digits value ≤ limit
  · rw [if_pos hvalue, if_pos (Nat.le_trans hvalue hlimit)]
    simp [hvalue]
  · rw [if_neg hvalue]
    split
    · simpa using hvalue
    · rfl

/-- Leading zeros do not count, however many there are. -/
theorem readDecimal_zeros (limit zeros : Nat) (digits : List Char) :
    readDecimal limit 0 (List.replicate zeros '0' ++ digits) = readDecimal limit 0 digits := by
  induction zeros with
  | zero => rfl
  | succ zeros ih =>
    rw [List.replicate_succ, List.cons_append, readDecimal, if_pos (Nat.zero_le limit)]
    exact ih

/-- A word that begins with a digit is a number or nothing. -/
theorem classify_of_isDigit {word : List Char}
    (hfirst : ∃ first ∈ word.head?, Text.isDigit first = true) (line : Nat) :
    classify ⟨line, word⟩ =
      if word.all Text.isDigit then
        if Nat.ofDigitChars 10 word 0 ≤ Token.maxInteger then
          .ok (.integer (Nat.ofDigitChars 10 word 0))
        else .error (.integerOutOfRange line (String.ofList word))
      else .error (.invalidToken line (String.ofList word)) := by
  obtain ⟨first, hhead, hdigit⟩ := hfirst
  obtain ⟨rest, hrest⟩ := List.head?_eq_some_iff.1 hhead
  obtain ⟨hgoes, hname⟩ := goesOn_of_isDigit hdigit
  have hword : (String.ofList word).toList = first :: rest := by rw [String.toList_ofList, hrest]
  have hclassify := classify_word hword hgoes line
  rw [Keyword.ofText?_of_isDigit hword hdigit, Option.elim_none, String.toList_ofList, hname,
    readDecimal_eq] at hclassify
  rw [hclassify]
  by_cases hall : word.all Text.isDigit = true
  · rw [if_pos hall, if_pos hall]
    split <;> rfl
  · rw [if_neg hall, if_neg hall]
    rfl

end Lexeme

namespace Lexer

/-- **Integers are read exactly.** Digits alone on a line, of any number and with any number of
zeros in front, are the integer with their decimal value if that is at most the largest one, and
otherwise an error that repeats them as they are. A word alone on a line that begins with a digit
and has another character is an error, too. -/
theorem integers_read_exactly (slot : Slot) :
    (∀ digits : List Char, digits ≠ [] → (∀ c ∈ digits, Text.isDigit c = true) →
      slot.ReadsAs digits fun line =>
        if Nat.ofDigitChars 10 digits 0 ≤ Token.maxInteger then
          .token (.integer (Nat.ofDigitChars 10 digits 0)) line
        else .error (.integerOutOfRange line (String.ofList digits))) ∧
    ∀ word : List Char, (∀ c ∈ word, Text.isWordPart c = true) →
      (∃ first ∈ word.head?, Text.isDigit first = true) → (∃ c ∈ word, Text.isDigit c = false) →
      slot.ReadsAs word fun line => .error (.invalidToken line (String.ofList word)) := by
  constructor
  · intro digits hne hdigits
    have hword : ∀ c ∈ digits, Text.isWordPart c = true :=
      fun c hc => (goesOn_of_isDigit (hdigits c hc)).1.part
    have hfirst : ∃ first ∈ digits.head?, Text.isDigit first = true := by
      obtain ⟨first, rest, rfl⟩ := List.exists_cons_of_ne_nil hne
      exact ⟨first, rfl, hdigits first List.mem_cons_self⟩
    -- in every slot the word is classified by itself
    have hreads := slot.readsAs_word hword hne
    simp only [Lexeme.event, Lexeme.classify_of_isDigit hfirst, List.all_eq_true.2 hdigits,
      if_true] at hreads
    convert hreads using 2 with line
    split <;> rfl
  · intro word hword hfirst hother
    have hne : word ≠ [] := by
      rintro rfl
      obtain ⟨first, hhead, -⟩ := hfirst
      cases hhead
    have hall : ¬ word.all Text.isDigit = true := by
      obtain ⟨c, hc, hnodigit⟩ := hother
      intro hall
      rw [List.all_eq_true.1 hall c hc] at hnodigit
      cases hnodigit
    have hreads := slot.readsAs_word hword hne
    simp only [Lexeme.event, Lexeme.classify_of_isDigit hfirst, if_neg hall] at hreads
    exact hreads

/-- A slot between a comment and a name. -/
def indented : Slot where
  before := "/* a\nb */\n".toUTF8.data.toList
  left := [' ', '\t']
  right := ['\r']
  behind := "\nc".toUTF8.data.toList
  begins := by decide +kernel
  ends := by decide +kernel
  blank := by
    simp only [List.cons_append, List.nil_append, List.forall_mem_cons, List.not_mem_nil,
      false_implies, implies_true, and_true]
    decide
  code := (inComment_drain _).trans (by decide +kernel)

theorem integers_read_exactly_indented :
    (indented.ReadsAs ['0', '0', '3', '2', '7', '6', '7'] fun line =>
        .token (.integer 32767) line) ∧
      (indented.ReadsAs ['0', '3', '2', '7', '6', '8'] fun line =>
        .error (.integerOutOfRange line "032768")) ∧
      indented.ReadsAs ['7', 'é', '_'] fun line => .error (.invalidToken line "7é_") :=
  ⟨(integers_read_exactly indented).1 ['0', '0', '3', '2', '7', '6', '7'] (List.cons_ne_nil _ _)
      (List.all_eq_true.1 (by decide)),
    (integers_read_exactly indented).1 ['0', '3', '2', '7', '6', '8'] (List.cons_ne_nil _ _)
      (List.all_eq_true.1 (by decide)),
    (integers_read_exactly indented).2 ['7', 'é', '_'] (List.all_eq_true.1 (by decide +kernel))
      ⟨'7', rfl, by decide⟩ ⟨'é', by decide, by decide⟩⟩

end Lexer

end Jack
