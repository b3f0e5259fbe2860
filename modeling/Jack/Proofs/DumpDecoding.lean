/-
Token dumps can be read back.

A dump shows every token as an element on a line of its own: the tags say what kind of token it
is, and between them stands its value, with four characters written as entities. `decode` goes
the other way. It reads the tag up to its end, the value up to the next tag, and the closing tag
up to the end of the line, and it takes nothing that a dump would not write.

That no value can be mistaken for something else rests on one fact, that an escaped text holds
no `<`. The value of a token therefore ends where the closing tag begins, whatever is in it: a
closing tag, an entity, blanks at either end, or nothing. The round trip is then proved element
by element, with any text behind the element. A dump that ends at an error has no closing tag and
is refused.
-/
import Jack.TokenDump
import Jack.Proofs.CompiledClass
import Jack.Proofs.Printing

set_option autoImplicit false

namespace Jack

/-! ## Kinds and values -/

namespace TokenKind

/-- Every kind once. -/
def all : List TokenKind := [keyword, symbol, identifier, integer, string]

/-- The kind that has a name in dumps. -/
def ofName? (name : List Char) : Option TokenKind := all.find? (·.name.toList == name)

theorem ofName?_name (kind : TokenKind) : ofName? kind.name.toList = some kind := by
  cases kind <;> decide

/-- The name of a kind has no character that ends a tag or a line. -/
theorem plain_name (kind : TokenKind) : '>' ∉ kind.name.toList ∧ '\n' ∉ kind.name.toList := by
  cases kind <;> decide

/-- The token of a kind that has a value. -/
def token? (kind : TokenKind) (value : List Char) : Option Token :=
  match kind with
  | keyword => (Keyword.ofText? (String.ofList value)).map .keyword
  | symbol =>
    match value with
    | [c] => some (.symbol c)
    | _ => none
  | identifier => some (.identifier (String.ofList value))
  | integer =>
    if value ≠ [] ∧ value.all Text.isDigit then some (.integer (Nat.ofDigitChars 10 value 0))
    else none
  | string => some (.string (String.ofList value))

end TokenKind

/-- A token is told by its kind and its value. -/
theorem Token.token?_value (token : Token) : token.kind.token? token.value.toList = some token := by
  cases token with
  | keyword keyword =>
    rw [Token.kind, Token.value, TokenKind.token?, String.ofList_toList, Keyword.ofText?_text]
    rfl
  | symbol c => simp [Token.kind, Token.value, TokenKind.token?]
  | identifier name => simp [Token.kind, Token.value, TokenKind.token?]
  | integer value =>
    have hdigits : (toString value).toList.all Text.isDigit = true :=
      List.all_eq_true.2 fun c hc => isDigit_of_mem_toString hc
    rw [Token.kind, Token.value, TokenKind.token?, if_pos ⟨toString_ne_nil value, hdigits⟩,
      ofDigitChars_toString]
  | string content => simp [Token.kind, Token.value, TokenKind.token?]

namespace TokenDump

/-! ## Entities -/

/-- The text that is shown by a marked-up text. -/
def unescape : List Char → Option (List Char)
  | [] => some []
  | '&' :: 'l' :: 't' :: ';' :: rest => (unescape rest).map ('<' :: ·)
  | '&' :: 'g' :: 't' :: ';' :: rest => (unescape rest).map ('>' :: ·)
  | '&' :: 'a' :: 'm' :: 'p' :: ';' :: rest => (unescape rest).map ('&' :: ·)
  | '&' :: 'q' :: 'u' :: 'o' :: 't' :: ';' :: rest => (unescape rest).map ('"' :: ·)
  | c :: rest => if escapeChar c = [c] then (unescape rest).map (c :: ·) else none

theorem escapeChar_of_plain {c : Char} (hc : c ∉ ['<', '>', '&', '"']) : escapeChar c = [c] := by
  unfold escapeChar
  split <;> simp_all

/-- Escaping is undone character by character. -/
theorem unescape_escapeChar (c : Char) (rest : List Char) :
    unescape (escapeChar c ++ rest) = (unescape rest).map (c :: ·) := by
  by_cases hc : c ∈ ['<', '>', '&', '"']
  · simp only [List.mem_cons, List.not_mem_nil, or_false] at hc
    rcases hc with rfl | rfl | rfl | rfl <;> rfl
  · have hplain := escapeChar_of_plain hc
    have hampersand : c ≠ '&' := by
      rintro rfl
      exact hc (by simp)
    rw [hplain, List.singleton_append, unescape, if_pos hplain]
    all_goals
      intros
      simp_all

theorem unescape_escape (text : List Char) : unescape (text.flatMap escapeChar) = some text := by
  induction text with
  | nil => rfl
  | cons c rest ih => rw [List.flatMap_cons, unescape_escapeChar, ih, Option.map_some]

/-- No tag can begin inside an escaped text. -/
theorem not_mem_escape (text : List Char) : '<' ∉ text.flatMap escapeChar := by
  intro hmem
  obtain ⟨c, -, hc⟩ := List.mem_flatMap.1 hmem
  by_cases hplain : c ∈ ['<', '>', '&', '"']
  · simp only [List.mem_cons, List.not_mem_nil, or_false] at hplain
    -- the four characters that are replaced, none of them by a text with `<` in it
    rcases hplain with rfl | rfl | rfl | rfl <;> exact absurd hc (by decide)
  · rw [escapeChar_of_plain hplain, List.mem_singleton] at hc
    exact hplain (by simp [← hc])

/-! ## Elements -/

/-- The text in front of the first of a character, and the text behind it. -/
def cutAt (stop : Char) : List Char → Option (List Char × List Char)
  | [] => none
  | c :: rest =>
    if c = stop then some ([], rest)
    else (cutAt stop rest).map fun (before, behind) => (c :: before, behind)

theorem cutAt_append {stop : Char} {before : List Char} (hbefore : stop ∉ before)
    (behind : List Char) : cutAt stop (before ++ stop :: behind) = some (before, behind) := by
  induction before with
  | nil => rw [List.nil_append, cutAt, if_pos rfl]
  | cons c before ih =>
    rw [List.mem_cons, not_or] at hbefore
    rw [List.cons_append, cutAt, if_neg (Ne.symm hbefore.1), ih hbefore.2]
    rfl

theorem length_of_cutAt {stop : Char} {text before behind : List Char}
    (hcut : cutAt stop text = some (before, behind)) : behind.length < text.length := by
  induction text generalizing before with
  | nil => cases hcut
  | cons c rest ih =>
    rw [cutAt] at hcut
    split at hcut
    · cases hcut
      exact Nat.lt_succ_self _
    · obtain ⟨⟨found, left⟩, hrest, hpair⟩ := Option.map_eq_some_iff.1 hcut
      cases hpair
      exact Nat.lt_succ_of_lt (ih hrest)

/-- The text between two blanks. -/
def unframe : List Char → Option (List Char)
  | ' ' :: rest => if rest.getLast? = some ' ' then some rest.dropLast else none
  | _ => none

theorem unframe_append (text : List Char) : unframe (' ' :: (text ++ [' '])) = some text := by
  rw [unframe, List.getLast?_concat, if_pos rfl, List.dropLast_concat]

/-- Reads the element that a text begins with; the result is its token and the text behind it. -/
def readElement (text : List Char) : Option (Token × List Char) := do
  let (start, inner) ← cutAt '<' text
  let (name, inner) ← cutAt '>' inner
  let (body, inner) ← cutAt '<' inner
  let (closing, rest) ← cutAt '\n' inner
  let kind ← TokenKind.ofName? name
  let token ← kind.token? (← unescape (← unframe body))
  if start = [] ∧ closing = '/' :: (name ++ ['>']) then some (token, rest) else none

theorem length_of_readElement {text rest : List Char} {token : Token}
    (hread : readElement text = some (token, rest)) : rest.length < text.length := by
  simp only [readElement, Option.bind_eq_bind, Option.bind_eq_some_iff] at hread
  obtain ⟨⟨start, opened⟩, hstart, ⟨name, tagged⟩, hname, ⟨body, shown⟩, hbody,
    ⟨closing, left⟩, hclosing, kind, -, framed, -, value, -, found, -, hend⟩ := hread
  split at hend
  · cases hend
    have h := length_of_cutAt hstart
    have h' := length_of_cutAt hname
    have h'' := length_of_cutAt hbody
    have h''' := length_of_cutAt hclosing
    dsimp only at h h' h'' h''' ⊢
    omega
  · cases hend

/-- **One element.** Whatever stands behind the element of a token, the token is read from it. -/
theorem readElement_element (token : Token) (rest : List Char) :
    readElement ((element token).toList ++ rest) = some (token, rest) := by
  obtain ⟨hname, hline⟩ := token.kind.plain_name
  -- each cut ends at the first of its character, so the piece in front must not have it
  have hbody : '<' ∉ ' ' :: (token.value.toList.flatMap escapeChar ++ [' ']) := by
    simpa using not_mem_escape token.value.toList
  have hclosing : '\n' ∉ '/' :: (token.kind.name.toList ++ ['>']) := by simpa using hline
  -- the element as the four pieces that the cuts give back
  have hshape : (element token).toList ++ rest =
      [] ++ '<' :: (token.kind.name.toList ++ '>' ::
        (' ' :: (token.value.toList.flatMap escapeChar ++ [' ']) ++ '<' ::
          ('/' :: (token.kind.name.toList ++ ['>']) ++ '\n' :: rest))) := by
    simp [element, escape, String.toList_append]
  rw [hshape, readElement, cutAt_append List.not_mem_nil]
  simp only [Option.bind_eq_bind, Option.bind_some, cutAt_append hname, cutAt_append hbody,
    cutAt_append hclosing, TokenKind.ofName?_name, unframe_append, unescape_escape,
    Token.token?_value, and_self, if_true]

/-! ## Whole dumps -/

/-- The tag in front of the elements, as a line. -/
def opening : String := "<tokens>\n"

/-- The tag behind the elements, as a line. -/
def closing : String := "</tokens>\n"

/-- Reads elements up to the closing tag, behind which nothing may stand. -/
def decodeElements (text : List Char) : Option (List Token) :=
  if text = closing.toList then some []
  else
    match _hread : readElement text with
    | none => none
    | some (token, rest) => (decodeElements rest).map (token :: ·)
termination_by text.length
decreasing_by exact length_of_readElement _hread

/-- The tokens that a dump shows, if the text is a dump that was written to its end. -/
def decode (dump : String) : Option (List Token) := do
  decodeElements (← dump.toList.dropPrefix? opening.toList)

/-- The elements of tokens. -/
def elements (tokens : List Token) : String := String.join (tokens.map element)

theorem elements_cons (token : Token) (rest : List Token) :
    elements (token :: rest) = element token ++ elements rest := by
  rw [elements, List.map_cons, String.join_cons, elements]

/-- The closing tag is no element. -/
theorem readElement_closing : readElement closing.toList = none := by
  decide

/-- An element in front of any text is read as a token in front of what the text shows. -/
theorem decodeElements_element (token : Token) (rest : List Char) :
    decodeElements ((element token).toList ++ rest) = (decodeElements rest).map (token :: ·) := by
  have hread := readElement_element token rest
  -- the text is not the closing tag, since an element is read from it
  have hne : (element token).toList ++ rest ≠ closing.toList := by
    intro hclosing
    rw [hclosing, readElement_closing] at hread
    cases hread
  rw [decodeElements, if_neg hne]
  split
  · next hnone =>
    rw [hread] at hnone
    cases hnone
  · next found left hsome =>
    rw [hread] at hsome
    cases hsome
    rfl

theorem decodeElements_elements (tokens : List Token) (rest : List Char) :
    decodeElements ((elements tokens).toList ++ rest) =
      (decodeElements rest).map (tokens ++ ·) := by
  induction tokens with
  | nil =>
    rw [elements, List.map_nil, String.join_nil]
    simp
  | cons token tokens ih =>
    rw [elements_cons, String.toList_append, List.append_assoc, decodeElements_element, ih,
      Option.map_map]
    rfl

/-- Decoding begins behind the opening tag. -/
theorem decode_opening (text : String) : decode (opening ++ text) = decodeElements text.toList := by
  have hdrop : (opening ++ text).toList.dropPrefix? opening.toList = some text.toList :=
    List.dropPrefix?_eq_some_iff.2 ⟨opening.toList, String.toList_append, BEq.rfl⟩
  rw [decode, hdrop]
  rfl

/-- A dump is decoded to its tokens. -/
theorem decode_closed (tokens : List Token) :
    decode (opening ++ (elements tokens ++ closing)) = some tokens := by
  have hclosing : decodeElements closing.toList = some [] := by rw [decodeElements, if_pos rfl]
  rw [decode_opening, String.toList_append, decodeElements_elements, hclosing, Option.map_some,
    List.append_nil]

/-- A dump that was not written to its end is not decoded. -/
theorem decode_unclosed (tokens : List Token) : decode (opening ++ elements tokens) = none := by
  -- behind the last element there is neither an element nor the closing tag
  have hend : decodeElements [] = none := by
    rw [decodeElements, if_neg (by decide)]
    rfl
  have helements := decodeElements_elements tokens []
  rwa [List.append_nil, hend, ← decode_opening] at helements

/-! ## Writing a dump -/

/-- A sink without limits that holds exactly this text. -/
structure Holds (sink : Vm.Sink) (text : String) : Prop where
  capacity : sink.capacity = none
  bytes : sink.bytes = text.toUTF8

theorem Holds.text {sink : Vm.Sink} {written : String} (h : Holds sink written) :
    sink.text = written :=
  Vm.Sink.text_of_bytes h.bytes

/-- What is written stands behind what was there. -/
theorem Holds.write {sink : Vm.Sink} {before : String} (h : Holds sink before) (text : String) :
    ∃ sink', sink.write text = .ok () sink' ∧ Holds sink' (before ++ text) := by
  obtain ⟨bytes, capacity, flushFails, flushes⟩ := sink
  obtain ⟨hcapacity, hbytes⟩ := h
  cases hcapacity
  refine ⟨_, rfl, rfl, ?_⟩
  show bytes ++ text.toUTF8 = (before ++ text).toUTF8
  rw [show bytes = before.toUTF8 from hbytes]
  exact (String.toByteArray_append ..).symm

/-- The lines of the tokens in front are written one behind the other; then comes the rest. -/
theorem Holds.writeItems_append {front : List Lexer.Item} {tokens : List Token}
    (hfront : front.map Lexer.Item.result = tokens.map .ok) (back : List Lexer.Item)
    {sink : Vm.Sink} {before : String} (h : Holds sink before) :
    ∃ sink', writeItems (front ++ back) sink = writeItems back sink' ∧
      Holds sink' (before ++ elements tokens) := by
  induction front generalizing tokens sink before with
  | nil =>
    obtain rfl := List.map_eq_nil_iff.1 hfront.symm
    refine ⟨sink, rfl, ?_⟩
    rwa [elements, List.map_nil, String.join_nil, String.append_empty]
  | cons item front ih =>
    obtain ⟨token, tokens, rfl, htoken, hrest⟩ := List.map_eq_cons_iff.1 hfront.symm
    obtain ⟨result, line⟩ := item
    obtain rfl : .ok token = result := htoken
    obtain ⟨middle, hwrite, hmiddle⟩ := h.write (element token)
    obtain ⟨last, hlast, hholds⟩ := ih hrest.symm hmiddle
    refine ⟨last, ?_, ?_⟩
    · simp only [List.cons_append, writeItems, bind, EStateM.bind, hwrite, hlast]
    · rwa [elements_cons, ← String.append_assoc]

/-- A new sink holds nothing. -/
theorem holds_new : Holds {} "" := ⟨rfl, rfl⟩

/-- The opening tag is the first thing that is written. -/
theorem write_eq (lexer : Lexer) : ∃ sink, Holds sink opening ∧
    write lexer {} = (do writeItems lexer.drain.1.toList; Vm.Sink.write closing : EStateM _ _ _) sink := by
  obtain ⟨sink, hwrite, hholds⟩ := holds_new.write opening
  refine ⟨sink, hholds, ?_⟩
  rw [opening] at hwrite
  simp only [write, bind, EStateM.bind, hwrite]
  rfl

/-- What is held when a source without errors has been dumped to its end. -/
theorem holds_ofSource {source : Source} {tokens : List Token}
    (htokens : Lexer.results { lines := source } = tokens.map .ok) :
    ∃ sink, ofSource source = (.ok (), sink) ∧
      Holds sink (opening ++ (elements tokens ++ closing)) := by
  obtain ⟨opened, hopened, hstart⟩ := write_eq { lines := source }
  obtain ⟨shown, hshown, hholds⟩ := hopened.writeItems_append htokens []
  obtain ⟨closed, hclosed, hend⟩ := hholds.write closing
  rw [String.append_assoc] at hend
  refine ⟨closed, ?_, hend⟩
  rw [List.append_nil] at hshown
  simp only [ofSource, hstart, bind, EStateM.bind, hshown, writeItems, pure, EStateM.pure, hclosed]

/-- A source without errors is dumped to its end. -/
theorem ofSource_of_tokens {source : Source} {tokens : List Token}
    (htokens : Lexer.results { lines := source } = tokens.map .ok) :
    ∃ sink, ofSource source = (.ok (), sink) ∧
      sink.text = opening ++ (elements tokens ++ closing) := by
  obtain ⟨sink, hdump, hholds⟩ := holds_ofSource htokens
  exact ⟨sink, hdump, hholds.text⟩

/-- A dump stops at the first error. -/
theorem ofSource_of_error {source : Source} {tokens : List Token} {error : Error}
    {behind : List (Except Error Token)}
    (hresults : Lexer.results { lines := source } = tokens.map .ok ++ .error error :: behind) :
    ∃ sink, ofSource source = (.error error, sink) ∧ sink.text = opening ++ elements tokens := by
  obtain ⟨opened, hopened, hstart⟩ := write_eq { lines := source }
  obtain ⟨front, back, hitems, hfront, hback⟩ := List.map_eq_append_iff.1 hresults
  obtain ⟨⟨result, line⟩, rest, rfl, hresult, -⟩ := List.map_eq_cons_iff.1 hback
  obtain rfl : result = .error error := hresult
  obtain ⟨shown, hshown, hholds⟩ := hopened.writeItems_append hfront (⟨.error error, line⟩ :: rest)
  -- `writeItems` stops at an error without writing
  have hstop : writeItems (⟨.error error, line⟩ :: rest) shown = .error error shown := rfl
  refine ⟨shown, ?_, hholds.text⟩
  simp only [ofSource, hstart, bind, EStateM.bind, hitems, hshown, hstop]

/-! ## The round trip -/

/-- **A dump is a faithful encoding.** A source that lexes without an error is dumped, and
decoding the dump gives back its tokens. If the tokens in front are followed by an error, the dump
ends with that error behind the lines of these tokens, and it is not taken for a whole one. -/
theorem decode_ofSource (source : Source) :
    (∀ tokens : List Token, Lexer.results { lines := source } = tokens.map .ok →
      ∃ sink, ofSource source = (.ok (), sink) ∧ decode sink.text = some tokens) ∧
    (∀ (tokens : List Token) (error : Error) (behind : List (Except Error Token)),
      Lexer.results { lines := source } = tokens.map .ok ++ .error error :: behind →
      ∃ sink, ofSource source = (.error error, sink) ∧
        sink.text = "<tokens>\n" ++ String.join (tokens.map element) ∧
        decode sink.text = none) := by
  constructor
  · intro tokens htokens
    obtain ⟨sink, hdump, htext⟩ := ofSource_of_tokens htokens
    exact ⟨sink, hdump, by rw [htext, decode_closed]⟩
  · intro tokens error behind hresults
    obtain ⟨sink, hdump, htext⟩ := ofSource_of_error hresults
    exact ⟨sink, hdump, htext, by rw [htext, decode_unclosed]⟩

/-- A string constant that looks like the end of its own element and of the dump, with blanks
around it. -/
def markup : Source := Source.ofText "do \" &lt;</stringConstant> </tokens> \" \"\""

/-- A line that lexes, and one that does not. -/
def broken : Source := Source.ofText "let x\n\"y"

theorem decode_markup_broken :
    (∃ sink, ofSource markup = (.ok (), sink) ∧ decode sink.text =
      some [.keyword .doKw, .string " &lt;</stringConstant> </tokens> ", .string ""]) ∧
    ∃ sink, ofSource broken = (.error (.unterminatedString 2), sink) ∧
      sink.text = "<tokens>\n" ++ String.join
        ([.keyword .letKw, .identifier "x"].map element) ∧ decode sink.text = none := by
  constructor
  · apply (decode_ofSource markup).1
    rw [Lexer.results_eq_pending (Lexer.aligned_start _)]
    rfl
  · apply (decode_ofSource broken).2 [.keyword .letKw, .identifier "x"]
    rw [Lexer.results_eq_pending (Lexer.aligned_start _)]
    rfl

end TokenDump

end Jack
