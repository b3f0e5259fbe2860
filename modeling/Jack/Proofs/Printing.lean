/-
Lexing undoes printing.

A token is written down by `Token.render`. Between tokens there may be gaps: blanks, line feeds
and comments of both kinds. `printed` is the text of tokens with a gap behind each, and `Spaced`
says when such a text keeps its tokens apart: two words do not touch, and nothing that stands
behind a slash makes it the beginning of a comment.

The proof goes from the end of the text to its beginning. `TextTells mode text told` says that a
scan which reaches the text in a mode meets no fault in it and tells certain events, whatever it
found on the same line before. Each piece of a layout, put in front of a text, changes what is
told in the way one expects: a gap moves the events down by its line feeds, and a token adds its
own event. Comments are the only pieces that need an induction of their own, since their bodies
run over the ends of lines.
-/
import Jack.Proofs.TextLines

set_option autoImplicit false

namespace Jack

open Lexeme (Mode scanFrom flush)

/-! ## Tokens that can be written -/

/-- A name that an identifier may have. -/
structure IsName (name : String) : Prop where
  start : ∃ first ∈ name.toList.head?, Text.isNameStart first = true
  part : ∀ c ∈ name.toList, Text.isWordPart c = true
  apart : ∀ c ∈ name.toList, Text.isWhiteSpace c = false ∧ isDelimiter c = false
  free : Keyword.ofText? name = none

theorem isName_iff {name : String} : IsName name ↔
    name.toList.head?.any Text.isNameStart = true ∧ name.toList.all Text.isWordPart = true ∧
      name.toList.all (fun c => !Text.isWhiteSpace c && !isDelimiter c) = true ∧
      Keyword.ofText? name = none := by
  simp only [Option.any_eq_true, List.all_eq_true, Bool.and_eq_true, Bool.not_eq_true']
  exact ⟨fun ⟨hstart, hpart, hapart, hfree⟩ => ⟨hstart, hpart, hapart, hfree⟩,
    fun ⟨hstart, hpart, hapart, hfree⟩ => ⟨hstart, hpart, hapart, hfree⟩⟩

instance (name : String) : Decidable (IsName name) := decidable_of_iff _ isName_iff.symm

/-- A token that some source text has. -/
def Token.WellFormed : Token → Prop
  | .keyword _ => True
  | .symbol c => isDelimiter c = true
  | .identifier name => IsName name
  | .integer value => value ≤ Token.maxInteger
  | .string content => '"' ∉ content.toList ∧ '\n' ∉ content.toList

instance : (token : Token) → Decidable token.WellFormed
  | .keyword _ => inferInstanceAs (Decidable True)
  | .symbol c => inferInstanceAs (Decidable (isDelimiter c = true))
  | .identifier name => inferInstanceAs (Decidable (IsName name))
  | .integer value => inferInstanceAs (Decidable (value ≤ Token.maxInteger))
  | .string content =>
    inferInstanceAs (Decidable ('"' ∉ content.toList ∧ '\n' ∉ content.toList))

/-- Whether a token is a word, so that another word must not touch it. -/
def Token.isWord : Token → Bool
  | .keyword _ => true
  | .symbol _ => false
  | .identifier _ => true
  | .integer _ => true
  | .string _ => false

/-! ## Layouts -/

/-- A piece of what stands between two tokens. -/
inductive Spacer where
  /-- A blank or a line feed. -/
  | space (c : Char)
  /-- `//body` with the line feed that ends it. -/
  | lineComment (body : List Char)
  /-- `/*body*/` -/
  | blockComment (body : List Char)

namespace Spacer

/-- How a piece is written. -/
def text : Spacer → List Char
  | space c => [c]
  | lineComment body => '/' :: '/' :: (body ++ ['\n'])
  | blockComment body => '/' :: '*' :: (body ++ ['*', '/'])

/-- A line comment ends at its line feed, and a block comment at its end marker. -/
def WellFormed : Spacer → Prop
  | space c => Text.isWhiteSpace c = true
  | lineComment body => '\n' ∉ body
  | blockComment body => ¬ ['*', '/'] <:+: body

instance : (piece : Spacer) → Decidable piece.WellFormed
  | space c => inferInstanceAs (Decidable (Text.isWhiteSpace c = true))
  | lineComment body => inferInstanceAs (Decidable ('\n' ∉ body))
  | blockComment body => inferInstanceAs (Decidable (¬ ['*', '/'] <:+: body))

end Spacer

/-- The text of a gap. -/
def gapText (gap : List Spacer) : List Char := gap.flatMap Spacer.text

/-- The text of tokens with a gap behind each. -/
def printed : List (Token × List Spacer) → List Char
  | [] => []
  | (token, gap) :: rest => token.render.toList ++ (gapText gap ++ printed rest)

/-- Tokens and gaps that keep the tokens apart. -/
def Spaced : List (Token × List Spacer) → Prop
  | [] => True
  | (token, gap) :: rest =>
    token.WellFormed ∧ (∀ piece ∈ gap, piece.WellFormed) ∧
      (gap = [] → ∀ next ∈ rest.head?, token.isWord = false ∨ next.1.isWord = false) ∧
      (token = .symbol '/' → ∀ c ∈ (gapText gap ++ printed rest).head?, c ≠ '/' ∧ c ≠ '*') ∧
      Spaced rest

instance : (items : List (Token × List Spacer)) → Decidable (Spaced items)
  | [] => inferInstanceAs (Decidable True)
  | (token, gap) :: rest =>
    have : Decidable (Spaced rest) := instDecidableSpaced rest
    have : Decidable (∀ c ∈ (gapText gap ++ printed rest).head?, c ≠ '/' ∧ c ≠ '*') :=
      Option.decidableForallMem _
    inferInstanceAs (Decidable (token.WellFormed ∧ (∀ piece ∈ gap, piece.WellFormed) ∧
      (gap = [] → ∀ next ∈ rest.head?, token.isWord = false ∨ next.1.isWord = false) ∧
      (token = .symbol '/' → ∀ c ∈ (gapText gap ++ printed rest).head?, c ≠ '/' ∧ c ≠ '*') ∧
      Spaced rest))

/-! ## Characters of words -/

/-- A character that goes on with a word, whatever stands behind it. -/
structure GoesOn (c : Char) : Prop where
  part : Text.isWordPart c = true
  space : Text.isWhiteSpace c = false
  delimiter : isDelimiter c = false

instance (c : Char) : Decidable (GoesOn c) :=
  decidable_of_iff (Text.isWordPart c = true ∧ Text.isWhiteSpace c = false ∧ isDelimiter c = false)
    ⟨fun ⟨h, h', h''⟩ => ⟨h, h', h''⟩, fun ⟨h, h', h''⟩ => ⟨h, h', h''⟩⟩

theorem GoesOn.ne_of_not {c other : Char} (h : GoesOn c) (hother : ¬ GoesOn other) : c ≠ other := by
  rintro rfl
  exact hother h

theorem Keyword.goesOn (keyword : Keyword) : ∀ c ∈ keyword.text.toList, GoesOn c := by
  have hall : keyword.text.toList.all (fun c => decide (GoesOn c)) = true := by
    cases keyword <;> decide +kernel
  intro c hc
  exact of_decide_eq_true (List.all_eq_true.1 hall c hc)

/-- The digits that numbers are written with go on with a word but begin no name. -/
theorem goesOn_of_isDigit {c : Char} (hc : Text.isDigit c = true) :
    GoesOn c ∧ Text.isNameStart c = false := by
  have hcheck : ∀ code : Fin 58, 48 ≤ code.val →
      GoesOn (Char.ofNat code.val) ∧ Text.isNameStart (Char.ofNat code.val) = false := by
    decide +kernel
  have hrange : 48 ≤ c.toNat ∧ c.toNat < 58 := by
    simp only [Text.isDigit, Bool.and_eq_true, decide_eq_true_eq, Char.le_def,
      UInt32.le_iff_toNat_le] at hc
    exact ⟨hc.1, Nat.lt_succ_of_le hc.2⟩
  have hdigit := hcheck ⟨c.toNat, hrange.2⟩ hrange.1
  rwa [Char.ofNat_toNat] at hdigit

theorem isDigit_of_mem_toString {value : Nat} {c : Char} (hc : c ∈ (toString value).toList) :
    Text.isDigit c = true := by
  rw [Nat.toString_eq_ofList_toDigits, String.toList_ofList] at hc
  have hdigit := Nat.isDigit_of_mem_toDigits (by decide) (by decide) hc
  simpa [Text.isDigit, Char.isDigit, Char.le_def] using hdigit

theorem toString_ne_nil (value : Nat) : (toString value).toList ≠ [] := by
  rw [Nat.toString_eq_ofList_toDigits, String.toList_ofList]
  exact Nat.toDigits_ne_nil

/-- A number is the value of its digits. -/
theorem ofDigitChars_toString (value : Nat) :
    Nat.ofDigitChars 10 (toString value).toList 0 = value := by
  rw [Nat.toString_eq_ofList_toDigits, String.toList_ofList, Nat.ofDigitChars_ten_toDigits]

/-! ## Scanning one piece -/

/-- Whatever begins this text ends a word in front of it. -/
def EndsWord (text : List Char) : Prop :=
  ∀ c ∈ text.head?, c = '"' ∨ Text.isWhiteSpace c = true ∨ isDelimiter c = true

theorem head?_firstLine {text : List Char} {c : Char} (hc : c ∈ (firstLine text).head?) :
    c ∈ text.head? := by
  cases text with
  | nil => exact hc
  | cons d rest =>
    by_cases hd : d = '\n'
    · rw [hd, firstLine, textLines, if_pos rfl] at hc
      cases hc
    · rwa [firstLine_cons hd] at hc

/-- A character that begins no comment, in code. -/
theorem scanFrom_code_plain {c : Char} {rest : List Char}
    (hslash : c = '/' → ∀ d ∈ rest.head?, d ≠ '/' ∧ d ≠ '*') (word : List Char)
    (found : List (List Char)) :
    scanFrom (.code word) found (c :: rest) =
      if c = '"' then scanFrom (.string []) (flush word found) rest
      else if Text.isWhiteSpace c then scanFrom (.code []) (flush word found) rest
      else if isDelimiter c then scanFrom (.code []) ([c] :: flush word found) rest
      else if Text.isWordPart c then scanFrom (.code (c :: word)) found rest
      else .error (.invalidCharacter c) := by
  apply Lexeme.scanFrom_code_cons
  · rintro tail rfl rfl
    exact (hslash rfl '/' rfl).1 rfl
  · rintro tail rfl rfl
    exact (hslash rfl '*' rfl).2 rfl

theorem flush_nil (found : List (List Char)) : flush [] found = found := rfl

/-- A word that is ended counts as found. -/
theorem scanFrom_word_end {text : List Char} (hends : EndsWord text) (word : List Char)
    (found : List (List Char)) :
    scanFrom (.code word) found text = scanFrom (.code []) (flush word found) text := by
  cases text with
  | nil => rfl
  | cons c rest =>
    by_cases hslash : c = '/' → ∀ d ∈ rest.head?, d ≠ '/' ∧ d ≠ '*'
    · rw [scanFrom_code_plain hslash, scanFrom_code_plain hslash, flush_nil]
      by_cases hquote : c = '"'
      · rw [if_pos hquote, if_pos hquote]
      · rw [if_neg hquote, if_neg hquote]
        rcases hends c rfl with h | hspace | hdelimiter
        · exact absurd h hquote
        · rw [if_pos hspace, if_pos hspace]
        · rw [if_pos hdelimiter, if_pos hdelimiter]
    · -- what begins is a comment, of either kind
      simp only [not_forall, not_and_or, not_not] at hslash
      obtain ⟨rfl, d, hd, hcomment⟩ := hslash
      obtain ⟨tail, rfl⟩ : ∃ tail, rest = d :: tail := by
        cases rest with
        | nil => cases hd
        | cons e tail => exact ⟨tail, by rw [Option.some.inj hd]⟩
      rcases hcomment with rfl | rfl
      · rw [Lexeme.scanFrom_lineComment, Lexeme.scanFrom_lineComment, flush_nil]
      · rw [Lexeme.scanFrom_blockComment, Lexeme.scanFrom_blockComment, flush_nil]

/-- A word is collected character by character. -/
theorem scanFrom_word {word : List Char} (hword : ∀ c ∈ word, GoesOn c) (begun : List Char)
    (found : List (List Char)) (rest : List Char) :
    scanFrom (.code begun) found (word ++ rest) =
      scanFrom (.code (word.reverse ++ begun)) found rest := by
  induction word generalizing begun with
  | nil => rfl
  | cons c word ih =>
    obtain ⟨hc, hothers⟩ := List.forall_mem_cons.1 hword
    have hslash : c ≠ '/' := hc.ne_of_not (by decide +kernel)
    have hquote : c ≠ '"' := hc.ne_of_not (by decide +kernel)
    rw [List.cons_append, scanFrom_code_plain (fun h => absurd h hslash), if_neg hquote,
      if_neg (by rw [hc.space]; decide), if_neg (by rw [hc.delimiter]; decide), if_pos hc.part,
      ih hothers, List.reverse_cons, List.append_assoc, List.singleton_append]

/-- The content of a string constant is collected up to the quote. -/
theorem scanFrom_string {content : List Char} (hcontent : '"' ∉ content) (begun : List Char)
    (found : List (List Char)) (rest : List Char) :
    scanFrom (.string begun) found (content ++ '"' :: rest) =
      scanFrom (.code []) (('"' :: (begun.reverse ++ content)) :: found) rest := by
  induction content generalizing begun with
  | nil => rw [List.nil_append, Lexeme.scanFrom_string_cons, if_pos rfl, List.append_nil]
  | cons c content ih =>
    rw [List.mem_cons, not_or] at hcontent
    rw [List.cons_append, Lexeme.scanFrom_string_cons, if_neg (Ne.symm hcontent.1), ih hcontent.2,
      List.reverse_cons, List.append_assoc, List.singleton_append]

/-! ## Tokens and their lexemes -/

/-- The lexeme that a token is found as. A string constant loses its closing quote. -/
def Token.lexeme : Token → List Char
  | .string content => '"' :: content.toList
  | token => token.render.toList

theorem Token.lexeme_symbol (c : Char) : (Token.symbol c).lexeme = [c] := by
  simp [Token.lexeme, Token.render, Token.value]

theorem Token.render_string (content : String) :
    (Token.string content).render.toList = '"' :: (content.toList ++ ['"']) := by
  simp [Token.render]

/-- What may stand directly behind a token on its line. -/
def Token.Precedes (token : Token) (rest : List Char) : Prop :=
  (token.isWord = true → EndsWord rest) ∧
    (token = .symbol '/' → ∀ c ∈ rest.head?, c ≠ '/' ∧ c ≠ '*')

/-- A word and what ends it. -/
theorem scanFrom_word_token {word : List Char} (hword : ∀ c ∈ word, GoesOn c) (hne : word ≠ [])
    {rest : List Char} (hends : EndsWord rest) (found : List (List Char)) :
    scanFrom (.code []) found (word ++ rest) = scanFrom (.code []) (word :: found) rest := by
  rw [scanFrom_word hword, List.append_nil, scanFrom_word_end hends, flush,
    if_neg (by simpa using hne), List.reverse_reverse]

theorem isDelimiter_plain {c : Char} (hc : isDelimiter c = true) :
    Text.isWhiteSpace c = false ∧ c ≠ '"' ∧ c ≠ '\n' := by
  have hall : delimiters.all (fun c => !Text.isWhiteSpace c && c != '"' && c != '\n') = true := by
    decide +kernel
  have hplain := List.all_eq_true.1 hall c (by simpa [isDelimiter] using hc)
  simpa [and_assoc] using hplain

/-- No token runs over the end of a line. -/
theorem Token.feed_not_mem_render {token : Token} (htoken : token.WellFormed) :
    '\n' ∉ token.render.toList := by
  have hword : ¬ GoesOn '\n' := by decide +kernel
  cases token with
  | keyword keyword => exact fun hmem => hword (keyword.goesOn _ hmem)
  | symbol c =>
    rw [show (Token.symbol c).render.toList = [c] from Token.lexeme_symbol c, List.mem_singleton]
    exact Ne.symm (isDelimiter_plain htoken).2.2
  | identifier name =>
    intro hmem
    exact absurd (htoken.apart _ hmem).1 (by decide)
  | integer value =>
    exact fun hmem => hword (goesOn_of_isDigit (isDigit_of_mem_toString hmem)).1
  | string content =>
    rw [Token.render_string]
    simp [htoken.2]

/-- **One token.** A scan in code that meets a token finds its lexeme and is in code again. -/
theorem scanFrom_token {token : Token} (htoken : token.WellFormed) {rest : List Char}
    (hrest : token.Precedes rest) (found : List (List Char)) :
    scanFrom (.code []) found (token.render.toList ++ rest) =
      scanFrom (.code []) (token.lexeme :: found) rest := by
  -- words are ended by what stands behind them, symbols and strings end themselves
  cases token with
  | keyword keyword =>
    refine scanFrom_word_token keyword.goesOn ?_ (hrest.1 rfl) found
    cases keyword <;> decide
  | symbol c =>
    obtain ⟨hspace, hquote, -⟩ := isDelimiter_plain htoken
    have htext : (Token.symbol c).render.toList = [c] := Token.lexeme_symbol c
    rw [Token.lexeme_symbol, htext, List.singleton_append,
      scanFrom_code_plain (fun h => hrest.2 (congrArg Token.symbol h)), if_neg hquote,
      if_neg (by rw [hspace]; decide), if_pos (show isDelimiter c = true from htoken), flush_nil]
  | identifier name =>
    refine scanFrom_word_token ?_ ?_ (hrest.1 rfl) found
    · intro c hc
      exact ⟨htoken.part c hc, (htoken.apart c hc).1, (htoken.apart c hc).2⟩
    · obtain ⟨first, hfirst, -⟩ := htoken.start
      intro hempty
      rw [show name.toList = [] from hempty] at hfirst
      cases hfirst
  | integer value =>
    have hdigits : ∀ c ∈ (toString value).toList, GoesOn c :=
      fun c hc => (goesOn_of_isDigit (isDigit_of_mem_toString hc)).1
    exact scanFrom_word_token hdigits (toString_ne_nil value) (hrest.1 rfl) found
  | string content =>
    rw [Token.render_string, List.cons_append, List.append_assoc, scanFrom_code_plain (by simp),
      if_pos rfl, flush_nil, List.singleton_append, scanFrom_string htoken.1]
    rfl

/-- Reading digits gives their value, unless it is above the limit. -/
theorem Lexeme.readDecimal_eq (limit : Nat) (digits : List Char) (value : Nat) :
    readDecimal limit value digits =
      if Nat.ofDigitChars 10 digits value ≤ limit then some (Nat.ofDigitChars 10 digits value)
      else none := by
  induction digits generalizing value with
  | nil => rfl
  | cons digit digits ih =>
    -- the value only grows with further digits
    have hgrows : ∀ (more : List Char) (begun : Nat), begun ≤ Nat.ofDigitChars 10 more begun := by
      intro more
      induction more with
      | nil => exact fun begun => Nat.le_refl begun
      | cons d more ihm =>
        intro begun
        rw [Nat.ofDigitChars_cons]
        have hmore := ihm (10 * begun + (d.toNat - '0'.toNat))
        omega
    rw [readDecimal, ih, Nat.ofDigitChars_cons]
    by_cases hvalue : value ≤ limit
    · rw [if_pos hvalue]
    · have hlarge := hgrows digits (10 * value + (digit.toNat - '0'.toNat))
      rw [if_neg hvalue, if_neg (by omega)]

/-- A word that begins with a digit is no keyword. -/
theorem Keyword.ofText?_of_isDigit {word : String} {first : Char} {rest : List Char}
    (hword : word.toList = first :: rest) (hfirst : Text.isDigit first = true) :
    Keyword.ofText? word = none := by
  have hletter : ∀ keyword : Keyword, keyword.text.toList.head?.any Text.isDigit = false := by
    intro keyword
    cases keyword <;> decide
  cases hfound : Keyword.ofText? word with
  | none => rfl
  | some keyword =>
    have hnone := hletter keyword
    rw [Keyword.text_of_ofText? hfound, hword, List.head?_cons, Option.any_some, hfirst] at hnone
    cases hnone

/-- A word is a keyword, an integer or a name, in this order. -/
theorem Lexeme.classify_word {word : String} {first : Char} {rest : List Char}
    (hword : word.toList = first :: rest) (hfirst : GoesOn first) (line : Nat) :
    Lexeme.classify ⟨line, word.toList⟩ =
      (Keyword.ofText? word).elim
        (if word.toList.all Text.isDigit then
          (readDecimal Token.maxInteger 0 word.toList).elim
            (.error (.integerOutOfRange line word)) fun value => .ok (.integer value)
        else if Text.isNameStart first then .ok (.identifier word)
        else .error (.invalidToken line word))
        fun keyword => .ok (.keyword keyword) := by
  have hquote : first ≠ '"' := hfirst.ne_of_not (by decide +kernel)
  have hname : String.ofList (first :: rest) = word := by rw [← hword, String.ofList_toList]
  rw [hword, Lexeme.classify]
  simp only [hname, if_neg hquote, hfirst.delimiter, Bool.and_false, Bool.false_eq_true, if_false]
  cases Keyword.ofText? word with
  | some keyword => rfl
  | none => cases readDecimal Token.maxInteger 0 (first :: rest) <;> rfl

/-- **Reading a lexeme back.** The lexeme of a token is classified as the token. -/
theorem Token.classify_lexeme {token : Token} (htoken : token.WellFormed) (line : Nat) :
    Lexeme.classify ⟨line, token.lexeme⟩ = .ok token := by
  -- the tests of the classification in their order: a quote, a delimiter, a keyword, digits
  cases token with
  | keyword keyword =>
    obtain ⟨first, rest, hword⟩ : ∃ first rest, keyword.text.toList = first :: rest := by
      cases keyword <;> exact ⟨_, _, rfl⟩
    have hfirst := keyword.goesOn first (by rw [hword]; exact List.mem_cons_self)
    have hclassify := Lexeme.classify_word hword hfirst line
    rw [Keyword.ofText?_text] at hclassify
    exact hclassify
  | symbol c =>
    obtain ⟨-, hquote, -⟩ := isDelimiter_plain htoken
    rw [Token.lexeme_symbol, Lexeme.classify]
    simp only [if_neg hquote, List.isEmpty_nil, Bool.true_and]
    rw [if_pos (show isDelimiter c = true from htoken)]
  | identifier name =>
    obtain ⟨first, hhead, hstart⟩ := htoken.start
    obtain ⟨rest, hname⟩ := List.head?_eq_some_iff.1 hhead
    have hmem : first ∈ name.toList := by
      rw [hname]
      exact List.mem_cons_self
    have hfirst : GoesOn first :=
      ⟨htoken.part first hmem, (htoken.apart first hmem).1, (htoken.apart first hmem).2⟩
    have hdigit : name.toList.all Text.isDigit = false := by
      by_contra hall
      rw [Bool.not_eq_false, List.all_eq_true] at hall
      have hplain := (goesOn_of_isDigit (hall first hmem)).2
      rw [hstart] at hplain
      cases hplain
    have hclassify := Lexeme.classify_word hname hfirst line
    rw [htoken.free, Option.elim_none, if_neg (by rw [hdigit]; decide), if_pos hstart] at hclassify
    exact hclassify
  | integer value =>
    obtain ⟨first, rest, hdigits⟩ := List.exists_cons_of_ne_nil (toString_ne_nil value)
    have hfirst : Text.isDigit first = true :=
      @isDigit_of_mem_toString value first (by rw [hdigits]; exact List.mem_cons_self)
    have hall : (toString value).toList.all Text.isDigit = true :=
      List.all_eq_true.2 fun c hc => isDigit_of_mem_toString hc
    have hclassify := Lexeme.classify_word hdigits (goesOn_of_isDigit hfirst).1 line
    rw [Keyword.ofText?_of_isDigit hdigits hfirst, Option.elim_none, if_pos hall,
      Lexeme.readDecimal_eq, ofDigitChars_toString,
      if_pos (show value ≤ Token.maxInteger from htoken)] at hclassify
    exact hclassify
  | string content =>
    rw [Token.lexeme, Lexeme.classify]
    simp

/-! ## What a text tells -/

/-- The events of lexemes found on one line, last one first. -/
def foundEvents (number : Nat) (found : List (List Char)) : List Event :=
  found.reverse.map fun text => Lexeme.event ⟨number, text⟩

/-- From a mode on, a text meets no fault and tells certain events, behind those of what was
found on its first line before. The events depend on the number of that line. -/
def TextTells (mode : Mode) (text : List Char) (told : Nat → List Event) : Prop :=
  ∀ found number, eventsBehind mode found number text = foundEvents number found ++ told number

namespace TextTells

variable {mode : Mode} {text rest : List Char} {told : Nat → List Event}

theorem nil : TextTells (.code []) [] fun _ => [] := by
  intro found number
  rfl

/-- A line feed outside strings and words. -/
theorem feed (hmode : mode = .code [] ∨ mode = .comment) (h : TextTells mode rest told) :
    TextTells mode ('\n' :: rest) fun number => told (number + 1) := by
  intro found number
  have hrest := h [] (number + 1)
  rw [show foundEvents (number + 1) [] = [] from rfl, List.nil_append] at hrest
  show eventsBehind mode found number ('\n' :: rest) = foundEvents number found ++ told (number + 1)
  rw [← hrest]
  rcases hmode with rfl | rfl
  · have hlines := eventsFrom_textLines false number rest
    rw [if_neg (by decide)] at hlines
    rw [← hlines]
    rfl
  · have hlines := eventsFrom_textLines true number rest
    rw [if_pos rfl] at hlines
    rw [← hlines]
    rfl

/-- Characters of one line that bring a scan from one mode to another. -/
theorem step {reached : Mode} (piece : List Char) (hpiece : '\n' ∉ piece)
    (hscan : ∀ found, scanFrom mode found (piece ++ firstLine rest) =
      scanFrom reached found (firstLine rest))
    (h : TextTells reached rest told) : TextTells mode (piece ++ rest) told := by
  intro found number
  rw [eventsBehind_append hpiece (hscan found), h found number]

theorem space {c : Char} (hc : Text.isWhiteSpace c = true) (h : TextTells (.code []) rest told) :
    TextTells (.code []) (c :: rest) fun number => told (number + [c].count '\n') := by
  by_cases hfeed : c = '\n'
  · rw [hfeed]
    exact h.feed (.inl rfl)
  · rw [List.count_cons_of_ne hfeed, List.count_nil]
    refine step [c] (by simpa using Ne.symm hfeed) ?_ h
    intro found
    have hslash : c ≠ '/' := by
      rintro rfl
      exact absurd hc (by decide)
    have hquote : c ≠ '"' := by
      rintro rfl
      exact absurd hc (by decide)
    rw [List.singleton_append, scanFrom_code_plain (fun heq => absurd heq hslash), if_neg hquote,
      if_pos hc, flush_nil]

/-- A line comment swallows the rest of its line. -/
theorem lineComment {body : List Char} (hbody : '\n' ∉ body) (h : TextTells (.code []) rest told) :
    TextTells (.code []) ('/' :: '/' :: (body ++ '\n' :: rest)) fun number =>
      told (number + 1) := by
  intro found number
  have hline : '\n' ∉ '/' :: '/' :: body := by simp [hbody]
  have hsame : eventsBehind (.code []) found number (('/' :: '/' :: body) ++ '\n' :: rest) =
      eventsBehind (.code []) found number ('\n' :: rest) := by
    apply eventsBehind_append hline
    rw [List.cons_append, List.cons_append, Lexeme.scanFrom_lineComment]
    rfl
  rw [← h.feed (.inl rfl) found number, ← hsame]
  rfl

/-- The body of a block comment, up to the mark that ends it. -/
theorem commentBody {body : List Char} (hbody : ¬ ['*', '/'] <:+: body)
    (h : TextTells (.code []) rest told) :
    TextTells .comment (body ++ '*' :: '/' :: rest) fun number =>
      told (number + body.count '\n') := by
  induction body with
  | nil =>
    refine step ['*', '/'] (by decide) ?_ h
    intro found
    rfl
  | cons c body ih =>
    have hrest : ¬ ['*', '/'] <:+: body := fun hinner =>
      hbody (hinner.trans (List.suffix_cons c body).isInfix)
    have hinner := ih hrest
    by_cases hfeed : c = '\n'
    · have hcount : (fun number => told (number + (c :: body).count '\n')) =
          fun number => told (number + 1 + body.count '\n') := by
        funext number
        rw [hfeed, List.count_cons_self, Nat.add_assoc, Nat.add_comm 1]
      rw [hcount, hfeed]
      exact hinner.feed (.inr rfl)
    · rw [List.count_cons_of_ne hfeed]
      refine step [c] (by simpa using Ne.symm hfeed) ?_ hinner
      intro found
      -- a star is not followed by a slash: the body does not hold the mark, and behind the body
      -- stands a star
      have hopen : ∀ tail, c = '*' →
          firstLine (body ++ '*' :: '/' :: rest) = '/' :: tail → False := by
        intro tail hstar hline
        have hhead : '/' ∈ (body ++ '*' :: '/' :: rest).head? := head?_firstLine (by rw [hline]; rfl)
        cases body with
        | nil => exact absurd (Option.some.inj hhead) (by decide)
        | cons d body =>
          have hd : d = '/' := Option.some.inj hhead
          apply hbody
          rw [hstar, hd]
          exact (List.prefix_append ['*', '/'] body).isInfix
      exact Lexeme.scanFrom_comment_cons hopen _

theorem blockComment {body : List Char} (hbody : ¬ ['*', '/'] <:+: body)
    (h : TextTells (.code []) rest told) :
    TextTells (.code []) ('/' :: '*' :: (body ++ '*' :: '/' :: rest)) fun number =>
      told (number + body.count '\n') := by
  refine step ['/', '*'] (by decide) ?_ (commentBody hbody h)
  intro found
  rw [List.cons_append, List.singleton_append, Lexeme.scanFrom_blockComment, flush_nil]

/-- A piece of a gap moves what is told down by its line feeds. -/
theorem spacer {piece : Spacer} (hpiece : piece.WellFormed) (h : TextTells (.code []) rest told) :
    TextTells (.code []) (piece.text ++ rest) fun number =>
      told (number + piece.text.count '\n') := by
  cases piece with
  | space c => exact h.space hpiece
  | lineComment body =>
    have hcount : (Spacer.lineComment body).text.count '\n' = 1 := by
      have hnone : body.count '\n' = 0 := List.count_eq_zero.2 hpiece
      simp [Spacer.text, hnone]
    rw [hcount]
    simpa [Spacer.text] using h.lineComment hpiece
  | blockComment body =>
    have hcount : (Spacer.blockComment body).text.count '\n' = body.count '\n' := by
      simp [Spacer.text]
    rw [hcount]
    simpa [Spacer.text] using h.blockComment hpiece

/-- A gap moves what is told down by its line feeds. -/
theorem gap {pieces : List Spacer} (hpieces : ∀ piece ∈ pieces, piece.WellFormed)
    (h : TextTells (.code []) rest told) :
    TextTells (.code []) (gapText pieces ++ rest) fun number =>
      told (number + (gapText pieces).count '\n') := by
  induction pieces with
  | nil => exact h
  | cons piece pieces ih =>
    obtain ⟨hpiece, hothers⟩ := List.forall_mem_cons.1 hpieces
    have hfirst := (ih hothers).spacer hpiece
    rw [gapText, List.flatMap_cons, List.append_assoc, List.count_append]
    rw [gapText] at hfirst
    simpa only [Nat.add_assoc] using hfirst

/-- A token adds its own event. -/
theorem token {token : Token} (htoken : token.WellFormed) (hrest : token.Precedes rest)
    (h : TextTells (.code []) rest told) :
    TextTells (.code []) (token.render.toList ++ rest) fun number =>
      .token token number :: told number := by
  intro found number
  have hline : token.Precedes (firstLine rest) :=
    ⟨fun hword c hc => hrest.1 hword c (head?_firstLine hc),
      fun hslash c hc => hrest.2 hslash c (head?_firstLine hc)⟩
  have hevent : Lexeme.event ⟨number, token.lexeme⟩ = .token token number := by
    rw [Lexeme.event, token.classify_lexeme htoken]
  rw [eventsBehind_append (token.feed_not_mem_render htoken) (scanFrom_token htoken hline found),
    h _ number]
  simp [foundEvents, hevent]

end TextTells

/-! ## Printed tokens -/

/-- A piece of a gap ends a word in front of it. -/
theorem Spacer.endsWord {piece : Spacer} (hpiece : piece.WellFormed) (rest : List Char) :
    EndsWord (piece.text ++ rest) := by
  cases piece with
  | space c =>
    rintro d ⟨⟩
    exact .inr (.inl hpiece)
  | lineComment body =>
    rintro d ⟨⟩
    exact .inr (.inr (by decide))
  | blockComment body =>
    rintro d ⟨⟩
    exact .inr (.inr (by decide))

/-- A token that is no word ends one in front of it. -/
theorem Token.endsWord {token : Token} (htoken : token.WellFormed) (hword : token.isWord = false)
    (rest : List Char) : EndsWord (token.render.toList ++ rest) := by
  cases token with
  | symbol c =>
    rw [show (Token.symbol c).render.toList = [c] from Token.lexeme_symbol c]
    rintro d ⟨⟩
    exact .inr (.inr htoken)
  | string content =>
    rw [Token.render_string]
    rintro d ⟨⟩
    exact .inl rfl
  | _ => cases hword

/-- What stands behind a token of a layout keeps it apart. -/
theorem Spaced.precedes {token : Token} {gap : List Spacer} {rest : List (Token × List Spacer)}
    (h : Spaced ((token, gap) :: rest)) : token.Precedes (gapText gap ++ printed rest) := by
  obtain ⟨htoken, hgap, htouch, hslash, hrest⟩ := h
  refine ⟨?_, hslash⟩
  intro hword
  cases gap with
  | cons piece pieces =>
    rw [gapText, List.flatMap_cons, List.append_assoc]
    exact Spacer.endsWord (hgap piece List.mem_cons_self) _
  | nil =>
    cases rest with
    | nil => exact fun c hc => absurd hc (by simp [gapText, printed])
    | cons next others =>
      have hnext : next.1.isWord = false := by
        rcases htouch rfl next rfl with hfalse | hfalse
        · rw [hword] at hfalse
          cases hfalse
        · exact hfalse
      exact Token.endsWord hrest.1 hnext _

/-- The tokens of a layout with their lines, the first token being on a given line. -/
def placed (line : Nat) : List (Token × List Spacer) → List (Token × Nat)
  | [] => []
  | (token, gap) :: rest => (token, line) :: placed (line + (gapText gap).count '\n') rest

/-- A token is on the first line, moved down by the line feeds before it. -/
theorem map_placed {items : List (Token × List Spacer)} (hspaced : Spaced items) (line : Nat) :
    (placed line items).map Lexer.tokenItem =
      items.mapIdx fun i item =>
        ⟨.ok item.1, line + (printed (items.take i)).count '\n'⟩ := by
  induction items generalizing line with
  | nil => rfl
  | cons item rest ih =>
    obtain ⟨token, gap⟩ := item
    have hnone : token.render.toList.count '\n' = 0 :=
      List.count_eq_zero.2 (token.feed_not_mem_render hspaced.1)
    have hline : ∀ i, line + (printed (((token, gap) :: rest).take (i + 1))).count '\n' =
        line + (gapText gap).count '\n' + (printed (rest.take i)).count '\n' := by
      intro i
      rw [List.take_succ_cons, printed, List.count_append, List.count_append, hnone]
      omega
    rw [placed, List.map_cons, ih hspaced.2.2.2.2, List.mapIdx_cons]
    simp only [hline]
    rfl

/-- A printed text tells its tokens, each with its line. -/
theorem textTells_printed {items : List (Token × List Spacer)} (hspaced : Spaced items) :
    TextTells (.code []) (printed items) fun number =>
      (placed number items).map fun item => .token item.1 item.2 := by
  induction items with
  | nil => exact .nil
  | cons item rest ih =>
    obtain ⟨token, gap⟩ := item
    exact ((ih hspaced.2.2.2.2).gap hspaced.2.1).token hspaced.1 hspaced.precedes

/-- What draining a printed text gives, with the lines counted along the gaps. -/
theorem Lexer.drain_placed {lead : List Spacer} {items : List (Token × List Spacer)}
    (hlead : ∀ piece ∈ lead, piece.WellFormed) (hspaced : Spaced items) :
    (drain (ofText (String.ofList (gapText lead ++ printed items)))).1.toList =
      (placed (1 + (gapText lead).count '\n') items).map tokenItem := by
  have htells := (textTells_printed hspaced).gap hlead [] 1
  refine drain_of_pending (aligned_ofBytes _) ?_
  rw [← List.nil_append (List.map _ (placed _ _))]
  exact (events_ofText _).trans htells

/-- **Lexing undoes printing.** Tokens that are written down with gaps between, before and
behind them are read back from the text: no error comes, and each token is on the line that is
one more than the line feeds before it. -/
theorem Lexer.drain_printed (lead : List Spacer) (items : List (Token × List Spacer))
    (hlead : ∀ piece ∈ lead, piece.WellFormed) (hspaced : Spaced items) :
    (drain (ofText (String.ofList (gapText lead ++ printed items)))).1.toList =
      items.mapIdx fun i item =>
        ⟨.ok item.1, 1 + (gapText lead ++ printed (items.take i)).count '\n'⟩ := by
  rw [drain_placed hlead hspaced, map_placed hspaced]
  simp only [List.count_append, Nat.add_assoc]

/-- A layout in which comments look like strings, a string looks like a comment, and a slash
stands in front of a gap that ends its line. -/
def crowded : List (Token × List Spacer) :=
  [(.keyword .letKw, [.blockComment ['*']]), (.identifier "_é9", []), (.symbol '=', []),
    (.string "/* // */", []), (.identifier "iffy", []),
    (.symbol '/', [.space '\n', .lineComment ['"']]), (.integer 32767, []),
    (.string "", [.blockComment ['/', '\n', '"', '*']]), (.symbol '/', []), (.keyword .ifKw, [])]

/-- The tokens of a crowded layout are read back, on the lines where they stand. -/
theorem Lexer.drain_crowded :
    (∀ piece ∈ [Spacer.blockComment ['\n'], .space '\t'], piece.WellFormed) ∧ Spaced crowded ∧
    (drain (ofText (String.ofList
        (gapText [.blockComment ['\n'], .space '\t'] ++ printed crowded)))).1.toList =
      [⟨.ok (.keyword .letKw), 2⟩, ⟨.ok (.identifier "_é9"), 2⟩, ⟨.ok (.symbol '='), 2⟩,
        ⟨.ok (.string "/* // */"), 2⟩, ⟨.ok (.identifier "iffy"), 2⟩, ⟨.ok (.symbol '/'), 2⟩,
        ⟨.ok (.integer 32767), 4⟩, ⟨.ok (.string ""), 4⟩, ⟨.ok (.symbol '/'), 5⟩,
        ⟨.ok (.keyword .ifKw), 5⟩] := by
  have hlead : ∀ piece ∈ [Spacer.blockComment ['\n'], .space '\t'], piece.WellFormed := by
    decide +kernel
  have hspaced : Spaced crowded := by decide +kernel
  exact ⟨hlead, hspaced, (drain_printed _ _ hlead hspaced).trans (by rfl)⟩

/-! ## One blank behind each token -/

/-- Tokens in the plainest layout. -/
def blanked (tokens : List Token) : List (Token × List Spacer) :=
  tokens.map fun token => (token, [.space ' '])

end Jack
