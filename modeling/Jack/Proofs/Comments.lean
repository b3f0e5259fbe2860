/-
Comments are blanks.

`stripFrom` goes over a whole text, over the ends of its lines, and puts a blank in the place of
every character of a comment; line feeds stay. It knows nothing of lexemes, and it is in one of
four regions: in code, in a string constant, in a line comment or in a block comment. A lexer
scans line by line instead, leaves a line at the beginning of a line comment, and carries one
flag from line to line. Both come to the same up to the first error (`comments_are_blanks`).
Behind an error they need not, because a faulty line closes a comment that was opened in it.

The proof follows `stripFrom`. `Unchanged region text blanked` says for each region how a scan that
stands there goes on alike in the text and in what it was stripped to. In a comment the lexer's
mode differs between the two: the one is inside the comment, the other is in code.
-/
import Jack.Proofs.Draining
import Jack.Proofs.Printing

set_option autoImplicit false

namespace Jack

open Lexeme (Mode scanFrom flush)

/-! ## Stripping -/

/-- Where a text can be between two characters. -/
inductive Region where
  | code
  | string
  | lineComment
  | blockComment
  deriving DecidableEq, Repr

/-- A text without comments, and the region where it ends. -/
structure Stripped where
  text : List Char
  region : Region

/-- Puts characters in front of a stripped text. -/
def Stripped.behind (front : List Char) (rest : Stripped) : Stripped :=
  ⟨front ++ rest.text, rest.region⟩

/-- Strips a text that begins in some region. A string constant ends at a quote or at the end of
its line, and a block comment at its end mark. -/
def stripFrom : Region → List Char → Stripped
  | region, [] => ⟨[], region⟩
  | .code, '/' :: '/' :: rest => (stripFrom .lineComment rest).behind [' ', ' ']
  | .code, '/' :: '*' :: rest => (stripFrom .blockComment rest).behind [' ', ' ']
  | .code, '"' :: rest => (stripFrom .string rest).behind ['"']
  | .code, c :: rest => (stripFrom .code rest).behind [c]
  | .string, '"' :: rest => (stripFrom .code rest).behind ['"']
  | .string, '\n' :: rest => (stripFrom .code rest).behind ['\n']
  | .string, c :: rest => (stripFrom .string rest).behind [c]
  | .lineComment, '\n' :: rest => (stripFrom .code rest).behind ['\n']
  | .lineComment, _ :: rest => (stripFrom .lineComment rest).behind [' ']
  | .blockComment, '*' :: '/' :: rest => (stripFrom .code rest).behind [' ', ' ']
  | .blockComment, '\n' :: rest => (stripFrom .blockComment rest).behind ['\n']
  | .blockComment, _ :: rest => (stripFrom .blockComment rest).behind [' ']

/-- A source text with blanks in the place of its comments. -/
def strip (source : String) : String := String.ofList (stripFrom .code source.toList).text

/-! ## Up to the first error -/

/-- Whether an event is an error. -/
def Event.isError : Event → Bool
  | .token _ _ => false
  | .error _ => true

/-- Some events up to the first error, which is one of them. -/
def upToError : List Event → List Event
  | [] => []
  | .token found line :: rest => .token found line :: upToError rest
  | .error met :: _ => [.error met]

theorem upToError_of_faultless {told : List Event} (htold : ∀ event ∈ told, event.isError = false) :
    upToError told = told := by
  induction told with
  | nil => rfl
  | cons event rest ih =>
    obtain ⟨hfirst, hrest⟩ := List.forall_mem_cons.1 htold
    cases event with
    | token found line => rw [upToError, ih hrest]
    | error met => cases hfirst

/-- Without an error up to the first one there is none. -/
theorem upToError_of_faultless_front {told : List Event}
    (htold : ∀ event ∈ upToError told, event.isError = false) : upToError told = told := by
  induction told with
  | nil => rfl
  | cons event rest ih =>
    cases event with
    | token found line =>
      rw [upToError] at htold ⊢
      rw [ih (List.forall_mem_cons.1 htold).2]
    | error met => exact absurd (htold _ (List.mem_singleton_self _)) Bool.noConfusion

/-- Two lists of events are the same up to the first error. -/
def Agree (first second : List Event) : Prop := upToError first = upToError second

namespace Agree

variable {first second third : List Event}

theorem symm (h : Agree first second) : Agree second first := Eq.symm h

theorem trans (h : Agree first second) (h' : Agree second third) : Agree first third := Eq.trans h h'

theorem error (met : Error) (first second : List Event) :
    Agree (.error met :: first) (.error met :: second) := rfl

/-- The same events in front make no difference. -/
theorem append (front : List Event) (h : Agree first second) :
    Agree (front ++ first) (front ++ second) := by
  induction front with
  | nil => exact h
  | cons event front ih =>
    cases event with
    | token found line => exact congrArg (Event.token found line :: ·) ih
    | error met => rfl

/-- If there is no error, they are the same altogether. -/
theorem eq (h : Agree first second) (hfirst : ∀ event ∈ first, event.isError = false) :
    first = second := by
  have hwhole := upToError_of_faultless hfirst
  have hsecond : upToError second = second := by
    apply upToError_of_faultless_front
    rw [← h, hwhole]
    exact hfirst
  rw [← hwhole, h, hsecond]

end Agree

/-! ## One step of a scan over the ends of lines -/

/-- A text from its first line feed on. -/
def restOfLines (text : List Char) : List Char := text.dropWhile (· != '\n')

theorem restOfLines_feed (rest : List Char) : restOfLines ('\n' :: rest) = '\n' :: rest := rfl

theorem restOfLines_cons {c : Char} (hc : c ≠ '\n') (rest : List Char) :
    restOfLines (c :: rest) = restOfLines rest := by
  rw [restOfLines, List.dropWhile_cons_of_pos (by simpa using hc)]
  rfl

theorem lines_restOfLines (text : List Char) :
    firstLine (restOfLines text) = [] ∧ laterLines (restOfLines text) = laterLines text := by
  induction text with
  | nil => exact ⟨rfl, rfl⟩
  | cons c rest ih =>
    by_cases hc : c = '\n'
    · rw [hc]
      exact ⟨rfl, rfl⟩
    · rwa [restOfLines_cons hc, laterLines_cons hc]

section Steps

variable (word content : List Char) (found : List (List Char)) (number : Nat) (rest : List Char)

theorem eventsBehind_code_feed :
    eventsBehind (.code word) found number ('\n' :: rest) =
      foundEvents number (flush word found) ++ eventsBehind (.code []) [] (number + 1) rest := by
  have hlines := eventsFrom_textLines false number rest
  rw [if_neg (by decide)] at hlines
  rw [← hlines]
  rfl

theorem eventsBehind_comment_feed :
    eventsBehind .comment found number ('\n' :: rest) =
      foundEvents number found ++ eventsBehind .comment [] (number + 1) rest := by
  have hlines := eventsFrom_textLines true number rest
  rw [if_pos rfl] at hlines
  rw [← hlines]
  rfl

/-- A line comment leaves nothing of its line. -/
theorem eventsBehind_lineComment :
    eventsBehind (.code word) found number ('/' :: '/' :: rest) =
      eventsBehind (.code []) (flush word found) number (restOfLines rest) := by
  obtain ⟨hfirst, hlater⟩ := lines_restOfLines rest
  rw [eventsBehind, eventsBehind, hfirst, hlater, firstLine_cons (by decide),
    firstLine_cons (by decide), laterLines_cons (by decide), laterLines_cons (by decide),
    Lexeme.scanFrom_lineComment]
  rfl

theorem eventsBehind_blockComment :
    eventsBehind (.code word) found number ('/' :: '*' :: rest) =
      eventsBehind .comment (flush word found) number rest :=
  eventsBehind_append (show '\n' ∉ ['/', '*'] by decide) (Lexeme.scanFrom_blockComment _ _ _)

theorem eventsBehind_comment_close :
    eventsBehind .comment found number ('*' :: '/' :: rest) =
      eventsBehind (.code []) found number rest :=
  eventsBehind_append (show '\n' ∉ ['*', '/'] by decide) rfl

theorem eventsBehind_quote :
    eventsBehind (.code word) found number ('"' :: rest) =
      eventsBehind (.string []) (flush word found) number rest :=
  eventsBehind_append (show '\n' ∉ ['"'] by decide)
    (by rw [List.singleton_append, scanFrom_code_plain (by simp), if_pos rfl])

theorem eventsBehind_string_close :
    eventsBehind (.string content) found number ('"' :: rest) =
      eventsBehind (.code []) (('"' :: content.reverse) :: found) number rest :=
  eventsBehind_append (show '\n' ∉ ['"'] by decide) rfl

theorem eventsBehind_blank :
    eventsBehind (.code word) found number (' ' :: rest) =
      eventsBehind (.code []) (flush word found) number rest :=
  eventsBehind_append (show '\n' ∉ [' '] by decide)
    (by rw [List.singleton_append, scanFrom_code_plain (by simp), if_neg (by decide),
      if_pos (by decide)])

/-- A character in a string constant. -/
theorem eventsBehind_string_cons {c : Char} (hquote : c ≠ '"') (hfeed : c ≠ '\n') :
    eventsBehind (.string content) found number (c :: rest) =
      eventsBehind (.string (c :: content)) found number rest :=
  eventsBehind_append (show '\n' ∉ [c] by simpa using Ne.symm hfeed)
    (by rw [List.singleton_append, Lexeme.scanFrom_string_cons, if_neg hquote])

/-- A character in a block comment that does not begin its end mark. -/
theorem eventsBehind_comment_cons {c : Char} (hclose : ∀ tail, c = '*' → rest = '/' :: tail → False)
    (hfeed : c ≠ '\n') :
    eventsBehind .comment found number (c :: rest) = eventsBehind .comment found number rest := by
  refine eventsBehind_append (show '\n' ∉ [c] by simpa using Ne.symm hfeed) ?_
  rw [List.singleton_append, Lexeme.scanFrom_comment_cons]
  intro tail hstar hline
  have hhead : '/' ∈ rest.head? := head?_firstLine (by rw [hline]; rfl)
  obtain ⟨tail, htail⟩ := List.head?_eq_some_iff.1 hhead
  exact hclose tail hstar htail

end Steps

/-- A character in code that is neither a quote nor the beginning of a comment. -/
theorem eventsBehind_code_cons {c : Char} {rest : List Char}
    (hslash : c = '/' → ∀ d ∈ rest.head?, d ≠ '/' ∧ d ≠ '*') (hquote : c ≠ '"') (hfeed : c ≠ '\n')
    (word : List Char) (found : List (List Char)) (number : Nat) :
    eventsBehind (.code word) found number (c :: rest) =
      if Text.isWhiteSpace c then eventsBehind (.code []) (flush word found) number rest
      else if isDelimiter c then eventsBehind (.code []) ([c] :: flush word found) number rest
      else if Text.isWordPart c then eventsBehind (.code (c :: word)) found number rest
      else .error (.invalidCharacter number c) ::
        eventsFrom false number ((laterLines rest).map .text) := by
  unfold eventsBehind
  rw [firstLine_cons hfeed, laterLines_cons hfeed,
    scanFrom_code_plain (fun hc d hd => hslash hc d (head?_firstLine hd)), if_neg hquote]
  split_ifs <;> rfl

/-! ## Stripping and scanning -/

/-- What follows a character, when the two begin no comment. -/
theorem apart_of_no_comment {c : Char} {rest : List Char}
    (hline : ∀ tail, c = '/' → rest = '/' :: tail → False)
    (hblock : ∀ tail, c = '/' → rest = '*' :: tail → False) :
    c = '/' → ∀ d ∈ rest.head?, d ≠ '/' ∧ d ≠ '*' := by
  intro hc d hd
  obtain ⟨tail, htail⟩ := List.head?_eq_some_iff.1 hd
  constructor
  · rintro rfl
    exact hline tail hc htail
  · rintro rfl
    exact hblock tail hc htail

/-- A stripped text begins as before, or with a blank. -/
theorem head?_stripFrom_code {text : List Char} {c : Char}
    (hc : c ∈ (stripFrom .code text).text.head?) : c = ' ' ∨ c ∈ text.head? := by
  cases text with
  | nil => exact .inr hc
  | cons d rest =>
    unfold stripFrom at hc
    split at hc <;> simp_all [Stripped.behind, eq_comm]

/-- Comments in a text make no difference to a scan that reaches it in some region. -/
def Unchanged (text blanked : List Char) : Region → Prop
  | .code => ∀ word found number, Agree (eventsBehind (.code word) found number text)
      (eventsBehind (.code word) found number blanked)
  | .string => ∀ content found number, Agree (eventsBehind (.string content) found number text)
      (eventsBehind (.string content) found number blanked)
  | .lineComment => ∀ found number, Agree (eventsBehind (.code []) found number (restOfLines text))
      (eventsBehind (.code []) found number blanked)
  | .blockComment => ∀ found number, Agree (eventsBehind .comment found number text)
      (eventsBehind (.code []) found number blanked)

/-- A character that stays, in code. -/
theorem Unchanged.code_cons {c : Char} {rest blanked : List Char} (hquote : c ≠ '"')
    (hrest : c = '/' → ∀ d ∈ rest.head?, d ≠ '/' ∧ d ≠ '*')
    (hblanked : c = '/' → ∀ d ∈ blanked.head?, d ≠ '/' ∧ d ≠ '*')
    (h : Unchanged rest blanked .code) : Unchanged (c :: rest) (c :: blanked) .code := by
  intro word found number
  by_cases hfeed : c = '\n'
  · rw [hfeed, eventsBehind_code_feed, eventsBehind_code_feed]
    exact (h [] [] (number + 1)).append _
  · rw [eventsBehind_code_cons hrest hquote hfeed, eventsBehind_code_cons hblanked hquote hfeed]
    split_ifs
    · exact h _ _ _
    · exact h _ _ _
    · exact h _ _ _
    · exact .error _ _ _

/-- **Stripping step by step.** A scan goes on alike in a text and in what it is stripped to. -/
theorem unchanged_stripFrom (region : Region) (text : List Char) :
    Unchanged text (stripFrom region text).text region := by
  fun_induction stripFrom region text with
  | case1 region =>
    cases region with
    | code => exact fun word found number => rfl
    | string => exact fun content found number => rfl
    | lineComment => exact fun found number => rfl
    | blockComment =>
      intro found number
      rfl
  -- both slashes of a line comment become blanks, and blanks end a word as the comment did
  | case2 rest ih =>
    intro word found number
    rw [eventsBehind_lineComment]
    show Agree _ (eventsBehind (.code word) found number (' ' :: ' ' :: _))
    rw [eventsBehind_blank, eventsBehind_blank]
    exact ih _ _
  | case3 rest ih =>
    intro word found number
    rw [eventsBehind_blockComment]
    show Agree _ (eventsBehind (.code word) found number (' ' :: ' ' :: _))
    rw [eventsBehind_blank, eventsBehind_blank]
    exact ih _ _
  | case4 rest ih =>
    intro word found number
    show Agree _ (eventsBehind (.code word) found number ('"' :: _))
    rw [eventsBehind_quote, eventsBehind_quote]
    exact ih _ _ _
  -- a character of code stays; what has to be seen is that it does not open a comment with what the
  -- text behind it was replaced by
  | case5 c rest hline hblock hquote ih =>
    have hrest := apart_of_no_comment hline hblock
    refine Unchanged.code_cons hquote hrest ?_ ih
    intro hc d hd
    rcases head?_stripFrom_code hd with rfl | hhead
    · decide
    · exact hrest hc d hhead
  | case6 rest ih =>
    intro content found number
    show Agree _ (eventsBehind (.string content) found number ('"' :: _))
    rw [eventsBehind_string_close, eventsBehind_string_close]
    exact ih _ _ _
  -- a string that does not end on its line is an error in both texts
  | case7 rest ih =>
    intro content found number
    exact .error _ _ _
  | case8 c rest hquote hfeed ih =>
    intro content found number
    show Agree _ (eventsBehind (.string content) found number (c :: _))
    rw [eventsBehind_string_cons _ _ _ _ hquote hfeed, eventsBehind_string_cons _ _ _ _ hquote hfeed]
    exact ih _ _ _
  -- the line ends with the comment, and the next one is told as a whole
  | case9 rest ih =>
    intro found number
    show Agree _ (eventsBehind (.code []) found number ('\n' :: _))
    rw [restOfLines_feed, eventsBehind_code_feed, eventsBehind_code_feed]
    exact (ih [] [] (number + 1)).append _
  | case10 c rest hfeed ih =>
    intro found number
    show Agree _ (eventsBehind (.code []) found number (' ' :: _))
    rw [restOfLines_cons hfeed, eventsBehind_blank]
    exact ih _ _
  | case11 rest ih =>
    intro found number
    show Agree _ (eventsBehind (.code []) found number (' ' :: ' ' :: _))
    rw [eventsBehind_comment_close, eventsBehind_blank, eventsBehind_blank]
    exact ih _ _ _
  | case12 rest ih =>
    intro found number
    show Agree _ (eventsBehind (.code []) found number ('\n' :: _))
    rw [eventsBehind_comment_feed, eventsBehind_code_feed]
    exact (ih [] (number + 1)).append _
  | case13 c rest hclose hfeed ih =>
    intro found number
    show Agree _ (eventsBehind (.code []) found number (' ' :: _))
    rw [eventsBehind_comment_cons _ _ _ hclose hfeed, eventsBehind_blank]
    exact ih _ _

/-! ## Blanks at the end of a text -/

/-- A blank or a line feed. -/
def IsBlank (c : Char) : Prop := c = ' ' ∨ c = '\n'

/-- Behind a text it adds nothing, wherever a scan of the text begins. -/
theorem eventsBehind_append_blank {c : Char} (hc : IsBlank c) (mode : Mode)
    (found : List (List Char)) (number : Nat) (text : List Char) :
    eventsBehind mode found number (text ++ [c]) = eventsBehind mode found number text := by
  by_cases hfeed : '\n' ∈ text
  · -- the blank stands on a later line
    obtain ⟨line, rest, rfl, hline⟩ := List.eq_append_cons_of_mem hfeed
    have hrest : ∀ inComment, eventsFrom inComment number ((textLines (rest ++ [c])).map .text) =
        eventsFrom inComment number ((textLines rest).map .text) := by
      intro inComment
      rw [eventsFrom_textLines, eventsFrom_textLines,
        eventsBehind_append_blank hc _ [] (number + 1) rest]
    have hlater : ∀ behind, laterLines (line ++ '\n' :: behind) = textLines behind :=
      fun behind => laterLines_append hline _
    rw [List.append_assoc, List.cons_append, eventsBehind, eventsBehind, firstLine_append hline,
      firstLine_append hline, hlater, hlater]
    show lineEvents number _ (scanFrom mode found (line ++ [])) =
      lineEvents number _ (scanFrom mode found (line ++ []))
    cases scanFrom mode found (line ++ []) with
    | error fault => rw [lineEvents, lineEvents, hrest]
    | ok scan => rw [lineEvents, lineEvents, hrest]
  · have hfirst := firstLine_append hfeed []
    have hlater := laterLines_append hfeed []
    rw [List.append_nil] at hfirst hlater
    rw [eventsBehind, eventsBehind, firstLine_append hfeed, laterLines_append hfeed, hfirst, hlater]
    rcases hc with rfl | rfl
    · rw [show firstLine [' '] = [' '] from rfl, Lexeme.scanFrom_append_space (by decide),
        show firstLine [] = [] from rfl, List.append_nil]
      rfl
    · rfl
termination_by text.length

theorem eventsBehind_append_blanks {blanks : List Char} (hblanks : ∀ c ∈ blanks, IsBlank c)
    (mode : Mode) (found : List (List Char)) (number : Nat) (text : List Char) :
    eventsBehind mode found number (text ++ blanks) = eventsBehind mode found number text := by
  induction blanks using List.reverseRecOn with
  | nil => rw [List.append_nil]
  | append_singleton blanks c ih =>
    obtain ⟨hothers, hc⟩ := List.forall_mem_append.1 hblanks
    rw [← List.append_assoc, eventsBehind_append_blank (hc c (List.mem_singleton_self c)),
      ih hothers]

/-! ## Comments that are not closed -/

/-- A text ends inside a block comment that was opened behind some front of it. The front ends in
code, and what stands behind it is stripped to blanks. -/
structure Opened (region : Region) (text front body : List Char) : Prop where
  split : text = front ++ '/' :: '*' :: body
  unclosed : ¬ ['*', '/'] <:+: body
  code : (stripFrom region front).region = .code
  blanks : ∃ blanks, (∀ c ∈ blanks, IsBlank c) ∧
    (stripFrom region text).text = (stripFrom region front).text ++ blanks

/-- Characters in front of both that are stripped alike. -/
theorem Opened.append {region next : Region} {rest front body : List Char}
    (h : Opened next rest front body) (piece added : List Char)
    (hrest : stripFrom region (piece ++ rest) = (stripFrom next rest).behind added)
    (hfront : stripFrom region (piece ++ front) = (stripFrom next front).behind added) :
    Opened region (piece ++ rest) (piece ++ front) body where
  split := by rw [h.split, List.append_assoc]
  unclosed := h.unclosed
  code := by
    rw [hfront]
    exact h.code
  blanks := by
    obtain ⟨blanks, hblanks, hstripped⟩ := h.blanks
    refine ⟨blanks, hblanks, ?_⟩
    rw [hrest, hfront, Stripped.behind, hstripped, ← List.append_assoc]
    rfl

/-- What does not begin the text behind does not begin its front either. -/
theorem Opened.not_front {region : Region} {rest front body : List Char}
    (h : Opened region rest front body) {c first second : Char}
    (hrest : ∀ tail, c = first → rest = second :: tail → False) :
    ∀ tail, c = first → front = second :: tail → False := by
  intro tail hc hfront
  refine hrest (tail ++ '/' :: '*' :: body) hc ?_
  rw [h.split, hfront]
  rfl

/-- A text that ends inside a block comment began there and does not close it, or opened it
somewhere. -/
theorem exists_opened {region : Region} {text : List Char}
    (hends : (stripFrom region text).region = .blockComment) :
    (region = .blockComment ∧ ¬ ['*', '/'] <:+: text ∧
      ∀ c ∈ (stripFrom region text).text, IsBlank c) ∨
    ∃ front body, Opened region text front body := by
  fun_induction stripFrom region text with
  | case1 region => exact .inl ⟨hends, by decide, fun c hc => absurd hc List.not_mem_nil⟩
  | case2 rest ih =>
    rcases ih hends with ⟨⟨⟩, -⟩ | ⟨front, body, h⟩
    exact .inr ⟨_, body, h.append ['/', '/'] [' ', ' '] rfl rfl⟩
  -- a block comment opens here: either it is the one that never closes, or that one is further
  -- behind
  | case3 rest ih =>
    right
    rcases ih hends with ⟨-, hunclosed, hblanks⟩ | ⟨front, body, h⟩
    · refine ⟨[], rest, rfl, hunclosed, rfl, _, ?_, rfl⟩
      exact List.forall_mem_cons.2 ⟨.inl rfl, List.forall_mem_cons.2 ⟨.inl rfl, hblanks⟩⟩
    · exact ⟨_, body, h.append ['/', '*'] [' ', ' '] rfl rfl⟩
  | case4 rest ih =>
    rcases ih hends with ⟨⟨⟩, -⟩ | ⟨front, body, h⟩
    exact .inr ⟨_, body, h.append ['"'] ['"'] rfl rfl⟩
  -- where nothing is opened, the place is further behind
  | case5 c rest hline hblock hquote ih =>
    rcases ih hends with ⟨⟨⟩, -⟩ | ⟨front, body, h⟩
    exact .inr ⟨_, body, h.append [c] [c] (stripFrom.eq_5 c rest hline hblock hquote)
      (stripFrom.eq_5 c front (h.not_front hline) (h.not_front hblock) hquote)⟩
  | case6 rest ih =>
    rcases ih hends with ⟨⟨⟩, -⟩ | ⟨front, body, h⟩
    exact .inr ⟨_, body, h.append ['"'] ['"'] rfl rfl⟩
  | case7 rest ih =>
    rcases ih hends with ⟨⟨⟩, -⟩ | ⟨front, body, h⟩
    exact .inr ⟨_, body, h.append ['\n'] ['\n'] rfl rfl⟩
  | case8 c rest hquote hfeed ih =>
    rcases ih hends with ⟨⟨⟩, -⟩ | ⟨front, body, h⟩
    exact .inr ⟨_, body, h.append [c] [c] (stripFrom.eq_8 c rest hquote hfeed)
      (stripFrom.eq_8 c front hquote hfeed)⟩
  | case9 rest ih =>
    rcases ih hends with ⟨⟨⟩, -⟩ | ⟨front, body, h⟩
    exact .inr ⟨_, body, h.append ['\n'] ['\n'] rfl rfl⟩
  | case10 c rest hfeed ih =>
    rcases ih hends with ⟨⟨⟩, -⟩ | ⟨front, body, h⟩
    exact .inr ⟨_, body, h.append [c] [' '] (stripFrom.eq_10 c rest hfeed)
      (stripFrom.eq_10 c front hfeed)⟩
  | case11 rest ih =>
    rcases ih hends with ⟨⟨⟩, -⟩ | ⟨front, body, h⟩
    exact .inr ⟨_, body, h.append ['*', '/'] [' ', ' '] rfl rfl⟩
  | case12 rest ih =>
    rcases ih hends with ⟨-, hunclosed, hblanks⟩ | ⟨front, body, h⟩
    · refine .inl ⟨rfl, ?_, List.forall_mem_cons.2 ⟨.inr rfl, hblanks⟩⟩
      simpa [List.infix_cons_iff] using hunclosed
    · exact .inr ⟨_, body, h.append ['\n'] ['\n'] rfl rfl⟩
  | case13 c rest hclose hfeed ih =>
    rcases ih hends with ⟨-, hunclosed, hblanks⟩ | ⟨front, body, h⟩
    · refine .inl ⟨rfl, ?_, List.forall_mem_cons.2 ⟨.inl rfl, hblanks⟩⟩
      rw [List.infix_cons_iff, not_or]
      refine ⟨?_, hunclosed⟩
      rintro ⟨tail, htail⟩
      obtain ⟨hstar, hrest⟩ := List.cons.inj htail
      exact hclose tail hstar.symm hrest.symm
    · exact .inr ⟨_, body, h.append [c] [' '] (stripFrom.eq_13 c rest hclose hfeed)
        (stripFrom.eq_13 c front (h.not_front hclose) hfeed)⟩

/-! ## Whole texts -/

namespace Lexer

theorem told_ofText (source : String) :
    told (ofText source) = eventsBehind (.code []) [] 1 source.toList := by
  rw [← events_ofText, String.ofList_toList]
  exact told_ofBytes _

theorem agree_strip (source : String) :
    Agree (told (ofText source)) (told (ofText (strip source))) := by
  rw [told_ofText, told_ofText, strip, String.toList_ofList]
  exact unchanged_stripFrom .code source.toList [] [] 1

/-- A comment that is not closed tells nothing: the text tells what it told in front of it. -/
theorem agree_front {source front : String} {body : List Char}
    (hopened : Opened .code source.toList front.toList body) :
    Agree (told (ofText source)) (told (ofText front)) := by
  obtain ⟨blanks, hblanks, hstripped⟩ := hopened.blanks
  have hsame : told (ofText (strip source)) = told (ofText (strip front)) := by
    rw [told_ofText, told_ofText, strip, strip, String.toList_ofList, String.toList_ofList,
      hstripped, eventsBehind_append_blanks hblanks]
  have hsource := agree_strip source
  rw [hsame] at hsource
  exact hsource.trans (agree_strip front).symm

/-- **Comments are blanks.** A text and the text with blanks in the place of its comments tell the
same up to the first error, and the same altogether if either of them tells none. A block comment
that is not closed swallows the rest of the text: what is told is what the text in front of the
comment tells. -/
theorem comments_are_blanks (source : String) :
    Agree (told (ofText source)) (told (ofText (strip source))) ∧
    ((∀ event ∈ told (ofText source), event.isError = false) ∨
      (∀ event ∈ told (ofText (strip source)), event.isError = false) →
      told (ofText source) = told (ofText (strip source))) ∧
    ((stripFrom .code source.toList).region = .blockComment →
      ∃ (front : String) (body : List Char), source.toList = front.toList ++ '/' :: '*' :: body ∧
        ¬ ['*', '/'] <:+: body ∧ (stripFrom .code front.toList).region = .code ∧
        Agree (told (ofText source)) (told (ofText front)) ∧
        ((∀ event ∈ told (ofText front), event.isError = false) →
          told (ofText source) = told (ofText front))) := by
  have hagree := agree_strip source
  refine ⟨hagree, ?_, ?_⟩
  · rintro (hfaultless | hfaultless)
    · exact hagree.eq hfaultless
    · exact (hagree.symm.eq hfaultless).symm
  · intro hends
    rcases exists_opened hends with ⟨⟨⟩, -⟩ | ⟨front, body, hopened⟩
    rw [← String.toList_ofList (l := front)] at hopened
    have hfront := agree_front hopened
    exact ⟨String.ofList front, body, hopened.split, hopened.unclosed, hopened.code, hfront,
      fun hfaultless => (hfront.symm.eq hfaultless).symm⟩

/-- A quote in a line comment, a mark in a string constant, and a comment that is not closed. -/
def swallowing : String := "do // \"\n\"/*\" /* */ x/*/ #\n9b"

theorem comments_are_blanks_swallowing :
    told (ofText swallowing) = told (ofText (strip swallowing)) ∧
    ∃ (front : String) (body : List Char),
      swallowing.toList = front.toList ++ '/' :: '*' :: body ∧ ¬ ['*', '/'] <:+: body ∧
      (stripFrom .code front.toList).region = .code ∧
      Agree (told (ofText swallowing)) (told (ofText front)) := by
  have hfaultless : ∀ event ∈ told (ofText swallowing), event.isError = false := by
    rw [told_ofText]
    decide +kernel
  obtain ⟨-, hwhole, hends⟩ := comments_are_blanks swallowing
  obtain ⟨front, body, hsplit, hunclosed, hcode, hfront, -⟩ := hends (by decide +kernel)
  exact ⟨hwhole (.inl hfaultless), front, body, hsplit, hunclosed, hcode, hfront⟩

-- what the text above is stripped to
example : strip swallowing = "do     \n\"/*\"       x     \n  " := by decide +kernel

end Lexer

end Jack
