/-
A text as the lexer reads it: characters, lines and events.

A source is cut into lines as bytes, and each line is decoded by itself. For a text this makes
no difference: no character but the line feed has the byte of a line feed in its encoding, so
the lines of the bytes are the encoded lines of the text (`ofText_eq`). Carriage returns at the
end of a line are cut off before it is scanned, and that makes no difference either: a scan
treats white space there like nothing in every mode (`scanFrom_append_space`).

With both out of the way, what a text has to tell can be followed character by character, over
the ends of lines. `eventsBehind` is what remains when a scan stands in the middle of a line.
-/
import Mathlib.Data.List.Induction
import Jack.Proofs.Pulls
import Jack.Proofs.TokenStream

set_option autoImplicit false

namespace Jack

/-! ## The lines of a text -/

/-- The lines of a text. A line feed ends a line and is not part of it; what follows the last
one is a line of its own if it is not empty. -/
def textLines : List Char → List (List Char)
  | [] => []
  | c :: rest =>
    if c = '\n' then [] :: textLines rest
    else
      match textLines rest with
      | [] => [[c]]
      | line :: more => (c :: line) :: more

/-- A text up to its first line feed. -/
def firstLine (text : List Char) : List Char := (textLines text).headD []

/-- The lines of a text behind its first line feed. -/
def laterLines (text : List Char) : List (List Char) := (textLines text).tail

theorem firstLine_cons {c : Char} (hc : c ≠ '\n') (rest : List Char) :
    firstLine (c :: rest) = c :: firstLine rest := by
  unfold firstLine
  rw [textLines, if_neg hc]
  cases textLines rest <;> rfl

theorem laterLines_cons {c : Char} (hc : c ≠ '\n') (rest : List Char) :
    laterLines (c :: rest) = laterLines rest := by
  unfold laterLines
  rw [textLines, if_neg hc]
  cases textLines rest <;> rfl

theorem firstLine_append {line : List Char} (hline : '\n' ∉ line) (rest : List Char) :
    firstLine (line ++ rest) = line ++ firstLine rest := by
  induction line with
  | nil => rfl
  | cons c line ih =>
    rw [List.mem_cons, not_or] at hline
    rw [List.cons_append, firstLine_cons (Ne.symm hline.1), ih hline.2, List.cons_append]

theorem laterLines_append {line : List Char} (hline : '\n' ∉ line) (rest : List Char) :
    laterLines (line ++ rest) = laterLines rest := by
  induction line with
  | nil => rfl
  | cons c line ih =>
    rw [List.mem_cons, not_or] at hline
    rw [List.cons_append, laterLines_cons (Ne.symm hline.1), ih hline.2]

/-- The first line stands in front of the others. -/
theorem textLines_eq {text : List Char} (htext : text ≠ []) :
    textLines text = firstLine text :: laterLines text := by
  cases text with
  | nil => exact absurd rfl htext
  | cons c rest =>
    by_cases hc : c = '\n'
    · rw [firstLine, laterLines, textLines, if_pos hc]
      rfl
    · rw [firstLine, laterLines, textLines, if_neg hc]
      cases textLines rest <;> rfl

/-- A line and its line feed come off the front. -/
theorem textLines_append_feed {line : List Char} (hline : '\n' ∉ line) (rest : List Char) :
    textLines (line ++ '\n' :: rest) = line :: textLines rest := by
  rw [textLines_eq (by simp), firstLine_append hline, laterLines_append hline, firstLine,
    laterLines, textLines, if_pos rfl]
  simp

/-- A text without a line feed is one line, or none. -/
theorem textLines_of_not_mem {line : List Char} (hline : '\n' ∉ line) :
    textLines line = if line = [] then [] else [line] := by
  by_cases hempty : line = []
  · rw [if_pos hempty, hempty]
    rfl
  · have hfirst := firstLine_append hline []
    have hlater := laterLines_append hline []
    rw [List.append_nil] at hfirst hlater
    rw [if_neg hempty, textLines_eq hempty, hfirst, hlater]
    simp [firstLine, laterLines, textLines]

/-! ## Bytes -/

/-- The bytes of some characters. -/
def encoded (text : List Char) : List UInt8 := text.flatMap String.utf8EncodeChar

theorem encoded_append (first rest : List Char) :
    encoded (first ++ rest) = encoded first ++ encoded rest := List.flatMap_append

theorem toUTF8_ofList (text : List Char) :
    (String.ofList text).toUTF8 = (encoded text).toByteArray := by
  rw [String.toUTF8_eq_toByteArray, String.toByteArray_ofList]
  rfl

theorem encoded_eq_nil_iff {text : List Char} : encoded text = [] ↔ text = [] := by
  cases text with
  | nil => exact ⟨fun _ => rfl, fun _ => rfl⟩
  | cons c rest => simp [encoded, String.utf8EncodeChar_ne_nil]

/-- A byte below 128 occurs in the encoding of one character only, the one with its number. -/
theorem eq_of_mem_utf8EncodeChar {c mark : Char} {byte : UInt8}
    (hmark : byte.toNat = mark.val.toNat) (hsmall : byte.toNat < 128)
    (hmem : byte ∈ String.utf8EncodeChar c) : c = mark := by
  -- the bytes of a longer encoding are all beyond these
  have hlarge : ∀ number : Nat, 128 ≤ number → number < 256 → byte ≠ UInt8.ofNat number := by
    intro number hlow hhigh heq
    rw [heq, UInt8.toNat_ofNat', Nat.mod_eq_of_lt hhigh] at hsmall
    omega
  unfold String.utf8EncodeChar at hmem
  dsimp only at hmem
  split at hmem
  · rw [List.mem_singleton.1 hmem, UInt8.toNat_ofNat'] at hmark
    exact Char.ext (UInt32.toNat_inj.1 (by omega))
  · split at hmem
    · simp only [List.mem_cons, List.not_mem_nil, or_false] at hmem
      rcases hmem with h | h <;> exact absurd h (hlarge _ (by omega) (by omega))
    · split at hmem
      · simp only [List.mem_cons, List.not_mem_nil, or_false] at hmem
        rcases hmem with h | h | h <;> exact absurd h (hlarge _ (by omega) (by omega))
      · simp only [List.mem_cons, List.not_mem_nil, or_false] at hmem
        rcases hmem with h | h | h | h <;> exact absurd h (hlarge _ (by omega) (by omega))

/-- Only the line feed is encoded with the byte that ends a line. -/
theorem lineFeed_not_mem_utf8EncodeChar {c : Char} (hc : c ≠ '\n') :
    Source.lineFeed ∉ String.utf8EncodeChar c := by
  intro hmem
  exact hc (eq_of_mem_utf8EncodeChar rfl (by decide) hmem)

namespace Source

/-- Bytes that end no line are added to the line being read. -/
theorem cutLines_append {bytes : List UInt8} (hbytes : lineFeed ∉ bytes) (line : List UInt8)
    (lines : List (List UInt8)) (rest : List UInt8) :
    cutLines line lines (bytes ++ rest) = cutLines (bytes.reverse ++ line) lines rest := by
  induction bytes generalizing line with
  | nil => rfl
  | cons byte bytes ih =>
    rw [List.mem_cons, not_or] at hbytes
    rw [List.cons_append, cutLines, if_neg (Ne.symm hbytes.1), ih hbytes.2, List.reverse_cons,
      List.append_assoc, List.singleton_append]

/-- The lines of an encoded text are its encoded lines. -/
theorem cutLines_encoded (line : List Char) (hline : '\n' ∉ line) (lines : List (List UInt8))
    (text : List Char) :
    cutLines (encoded line).reverse lines (encoded text) =
      lines.reverse ++ (textLines (line ++ text)).map encoded := by
  induction text generalizing line lines with
  | nil =>
    rw [List.append_nil, textLines_of_not_mem hline]
    by_cases hempty : line = []
    · simp [hempty, encoded, cutLines]
    · have hbytes : encoded line ≠ [] := fun h => hempty (encoded_eq_nil_iff.1 h)
      rw [if_neg hempty, show encoded [] = [] from rfl, cutLines, if_neg (by simp [hbytes])]
      simp
  | cons c text ih =>
    by_cases hc : c = '\n'
    · have hstep : cutLines (encoded line).reverse lines (encoded (c :: text)) =
          cutLines [] (encoded line :: lines) (encoded text) := by
        rw [hc, show encoded ('\n' :: text) = lineFeed :: encoded text from rfl, cutLines,
          if_pos rfl, List.reverse_reverse]
      have hrest := ih [] List.not_mem_nil (encoded line :: lines)
      rw [hstep, show ([] : List UInt8) = (encoded []).reverse from rfl, hrest, hc,
        textLines_append_feed hline]
      simp
    -- any other character goes on with the line, as all of its bytes do
    · have hgrown : '\n' ∉ line ++ [c] := by
        simp [hline, Ne.symm hc]
      have hstep : cutLines (encoded line).reverse lines (encoded (c :: text)) =
          cutLines (encoded (line ++ [c])).reverse lines (encoded text) := by
        rw [show encoded (c :: text) = String.utf8EncodeChar c ++ encoded text from rfl,
          cutLines_append (lineFeed_not_mem_utf8EncodeChar hc), encoded_append, List.reverse_append]
        simp [encoded]
      rw [hstep, ih _ hgrown, List.append_assoc, List.singleton_append]

/-- A line of a text can be read. -/
theorem decodeLine_encoded (line : List Char) :
    decodeLine (encoded line) = .text (trimReturns line) := by
  have hvalid : String.fromUTF8? (encoded line).toByteArray = some (String.ofList line) := by
    rw [← toUTF8_ofList, String.fromUTF8?]
    split
    · rfl
    · next hinvalid => exact absurd (String.ofList line).isValidUTF8 hinvalid
  rw [decodeLine, hvalid]
  simp

/-- **Texts and lines.** The source of a text are the lines of the text, without the carriage
returns at their ends. -/
theorem ofText_eq (text : List Char) :
    ofText (String.ofList text) = (textLines text).map fun line => .text (trimReturns line) := by
  have hcut := cutLines_encoded [] List.not_mem_nil [] text
  have hbytes : (String.ofList text).toUTF8.data.toList = encoded text := by
    rw [toUTF8_ofList, List.data_toByteArray]
  rw [ofText, ofBytes, hbytes]
  have hnil : ([] : List UInt8) = (encoded []).reverse := rfl
  rw [hnil, hcut]
  simp [decodeLine_encoded]

end Source

/-! ## One character of a scan -/

namespace Lexeme

theorem scanFrom_comment_cons {c : Char} {rest : List Char}
    (hopen : ∀ tail, c = '*' → rest = '/' :: tail → False) (found : List (List Char)) :
    scanFrom .comment found (c :: rest) = scanFrom .comment found rest :=
  scanFrom.eq_3 _ _ _ hopen

theorem scanFrom_string_cons (content : List Char) (found : List (List Char)) (c : Char)
    (rest : List Char) :
    scanFrom (.string content) found (c :: rest) =
      if c = '"' then scanFrom (.code []) (('"' :: content.reverse) :: found) rest
      else scanFrom (.string (c :: content)) found rest := rfl

theorem scanFrom_lineComment (word : List Char) (found : List (List Char)) (rest : List Char) :
    scanFrom (.code word) found ('/' :: '/' :: rest) =
      .ok ⟨(flush word found).reverse, false⟩ := rfl

theorem scanFrom_blockComment (word : List Char) (found : List (List Char)) (rest : List Char) :
    scanFrom (.code word) found ('/' :: '*' :: rest) =
      scanFrom .comment (flush word found) rest := rfl

/-- A character that begins no comment, in code. -/
theorem scanFrom_code_cons {c : Char} {rest : List Char}
    (hline : ∀ tail, c = '/' → rest = '/' :: tail → False)
    (hblock : ∀ tail, c = '/' → rest = '*' :: tail → False) (word : List Char)
    (found : List (List Char)) :
    scanFrom (.code word) found (c :: rest) =
      if c = '"' then scanFrom (.string []) (flush word found) rest
      else if Text.isWhiteSpace c then scanFrom (.code []) (flush word found) rest
      else if isDelimiter c then scanFrom (.code []) ([c] :: flush word found) rest
      else if Text.isWordPart c then scanFrom (.code (c :: word)) found rest
      else .error (.invalidCharacter c) :=
  scanFrom.eq_9 _ _ _ _ hline hblock

/-! ## White space at the end of a line -/

/-- White space is no mark of the language. -/
theorem space_plain {space : Char} (hspace : Text.isWhiteSpace space = true) :
    space ≠ '"' ∧ space ≠ '/' ∧ space ≠ '*' := by
  refine ⟨?_, ?_, ?_⟩
  all_goals
    rintro rfl
    exact absurd hspace (by decide)

/-- A character behind the rest of a line does not make another one begin it. -/
theorem append_ne {first second c space : Char} {rest : List Char} (hsecond : space ≠ second)
    (h : ∀ tail, c = first → rest = second :: tail → False) :
    ∀ tail, c = first → rest ++ [space] = second :: tail → False := by
  intro tail hc hrest
  cases rest with
  | nil => exact hsecond (List.cons.inj hrest).1
  | cons d rest =>
    rw [(List.cons.inj hrest).1] at h
    exact h rest hc rfl

/-- White space at the end of a line changes nothing: code skips it, comments and unfinished
strings take no notice. -/
theorem scanFrom_append_space {space : Char} (hspace : Text.isWhiteSpace space = true)
    (mode : Mode) (found : List (List Char)) (line : List Char) :
    scanFrom mode found (line ++ [space]) = scanFrom mode found line := by
  obtain ⟨hnoquote, hslash, hstar⟩ := space_plain hspace
  have hlast : ∀ (first second : Char) (tail : List Char), space = first →
      [] = second :: tail → False := fun _ _ _ _ hrest => List.cons_ne_nil _ _ hrest.symm
  fun_induction scanFrom mode found line with
  | case1 found =>
    rw [List.nil_append, scanFrom_comment_cons (hlast '*' '/')]
    rfl
  | case2 found rest ih => exact ih
  | case3 found c rest hopen ih =>
    rw [List.cons_append, scanFrom_comment_cons (append_ne hslash hopen), ih]
  | case4 content found =>
    rw [List.nil_append, scanFrom_string_cons, if_neg hnoquote]
    rfl
  | case5 content found rest ih =>
    rw [List.cons_append, scanFrom_string_cons, if_pos rfl, ih]
  | case6 content found c rest hc ih =>
    rw [List.cons_append, scanFrom_string_cons, if_neg hc, ih]
  | case7 word found =>
    -- the white space ends the word, and the end of the line would have done so
    rw [List.nil_append, scanFrom_code_cons (hlast '/' '/') (hlast '/' '*'), if_neg hnoquote,
      if_pos hspace]
    rfl
  | case8 word found tail => rfl
  | case9 word found rest ih => exact ih
  | case10 word found rest hline hblock ih =>
    rw [List.cons_append, scanFrom_code_cons (append_ne hslash hline)
      (append_ne hstar hblock), if_pos rfl, ih]
  | case11 word found c rest hline hblock hquote hblank ih =>
    rw [List.cons_append, scanFrom_code_cons (append_ne hslash hline)
      (append_ne hstar hblock), if_neg hquote, if_pos hblank, ih]
  | case12 word found c rest hline hblock hquote hblank hdelimiter ih =>
    rw [List.cons_append, scanFrom_code_cons (append_ne hslash hline)
      (append_ne hstar hblock), if_neg hquote, if_neg hblank, if_pos hdelimiter, ih]
  | case13 word found c rest hline hblock hquote hblank hdelimiter hword ih =>
    rw [List.cons_append, scanFrom_code_cons (append_ne hslash hline)
      (append_ne hstar hblock), if_neg hquote, if_neg hblank, if_neg hdelimiter,
      if_pos hword, ih]
  | case14 word found c rest hline hblock hquote hblank hdelimiter hword =>
    rw [List.cons_append, scanFrom_code_cons (append_ne hslash hline)
      (append_ne hstar hblock), if_neg hquote, if_neg hblank, if_neg hdelimiter,
      if_neg hword]

/-- A line is scanned alike with and without the carriage returns at its end. -/
theorem scanFrom_trimReturns (mode : Mode) (found : List (List Char)) (line : List Char) :
    scanFrom mode found (Source.trimReturns line) = scanFrom mode found line := by
  induction line using List.reverseRecOn with
  | nil => rfl
  | append_singleton line c ih =>
    unfold Source.trimReturns at ih ⊢
    rw [List.reverse_append, List.reverse_singleton, List.singleton_append]
    by_cases hc : c = '\r'
    · rw [List.dropWhile_cons_of_pos (by simp [hc]), ih, hc, scanFrom_append_space (by decide)]
    · rw [List.dropWhile_cons_of_neg (by simp [hc]), List.reverse_cons, List.reverse_reverse]

end Lexeme

/-! ## Events over the ends of lines -/

/-- The events of a line with a number, given how its scan ended, and of the lines behind it. -/
def lineEvents (number : Nat) (rest : Source) : Except Lexeme.Fault Lexeme.Scan → List Event
  | .error fault => .error (fault.error number) :: eventsFrom false number rest
  | .ok scan =>
    scan.lexemes.map (fun text => Lexeme.event ⟨number, text⟩) ++
      eventsFrom scan.inComment number rest

/-- What a text has still to tell when a scan stands in the middle of the line with a number:
in some mode, with lexemes of the line found and the rest of the text ahead. -/
def eventsBehind (mode : Lexeme.Mode) (found : List (List Char)) (number : Nat)
    (text : List Char) : List Event :=
  lineEvents number ((laterLines text).map .text) (Lexeme.scanFrom mode found (firstLine text))

theorem eventsFrom_text (inComment : Bool) (linesRead : Nat) (characters : List Char)
    (rest : Source) :
    eventsFrom inComment linesRead (.text characters :: rest) =
      lineEvents (linesRead + 1) rest (Lexeme.scanLine inComment characters) := by
  rw [eventsFrom]
  cases Lexeme.scanLine inComment characters <;> rfl

/-- Carriage returns at the ends of lines do not show in the events. -/
theorem eventsFrom_trimReturns (inComment : Bool) (linesRead : Nat) (lines : List (List Char)) :
    eventsFrom inComment linesRead (lines.map fun line => .text (Source.trimReturns line)) =
      eventsFrom inComment linesRead (lines.map .text) := by
  induction lines generalizing inComment linesRead with
  | nil => rfl
  | cons line lines ih =>
    rw [List.map_cons, List.map_cons, eventsFrom_text, eventsFrom_text, Lexeme.scanLine,
      Lexeme.scanLine, Lexeme.scanFrom_trimReturns]
    cases Lexeme.scanFrom (if inComment then .comment else .code []) [] line with
    | error fault => rw [lineEvents, lineEvents, ih]
    | ok scan => rw [lineEvents, lineEvents, ih]

/-- The lines of a text tell what a scan from its first character on tells. -/
theorem eventsFrom_textLines (inComment : Bool) (linesRead : Nat) (text : List Char) :
    eventsFrom inComment linesRead ((textLines text).map .text) =
      eventsBehind (if inComment then .comment else .code []) [] (linesRead + 1) text := by
  by_cases htext : text = []
  · rw [htext]
    cases inComment <;> rfl
  · rw [textLines_eq htext, List.map_cons, eventsFrom_text]
    rfl

/-- **Events of a text.** They are told by a scan that begins in code, on the first line. -/
theorem events_ofText (text : List Char) :
    events (Source.ofText (String.ofList text)) = eventsBehind (.code []) [] 1 text := by
  rw [Source.ofText_eq, events, eventsFrom_trimReturns, eventsFrom_textLines]
  rfl

/-- Characters of one line take a scan from one mode to another, whatever line stands behind
them that meets a condition. -/
theorem eventsBehind_append {mode reached : Lexeme.Mode} {found added : List (List Char)}
    {piece : List Char} (hpiece : '\n' ∉ piece) {number : Nat} {rest : List Char}
    (hscan : Lexeme.scanFrom mode found (piece ++ firstLine rest) =
      Lexeme.scanFrom reached added (firstLine rest)) :
    eventsBehind mode found number (piece ++ rest) = eventsBehind reached added number rest := by
  unfold eventsBehind
  rw [firstLine_append hpiece, laterLines_append hpiece, hscan]

/-! ## Draining -/

namespace Lexer

/-- A token and its line as draining gives them. -/
def tokenItem (placed : Token × Nat) : Item := ⟨.ok placed.1, placed.2⟩

/-- A pull takes the token that is pending first, and its line becomes the current one. -/
theorem next_of_pending {lexer : Lexer} (haligned : lexer.Aligned) {token : Token} {line : Nat}
    {rest : List Event} (hpending : lexer.pending = .token token line :: rest) :
    ∃ reached, next lexer = .ok (some token) reached ∧ reached.lineNumber = line ∧
      reached.Aligned ∧ reached.pending = rest := by
  obtain ⟨hcalled, hreached, ⟨event, -, hreply, htells⟩ | ⟨_, -, -, hnone, -⟩⟩ := pull_cases haligned
  · have hsplit := htells.pending
    rw [hpending, List.singleton_append] at hsplit
    obtain ⟨rfl, hrest⟩ := List.cons.inj hsplit
    rw [← hcalled] at hreached hrest htells
    cases hnext : next lexer with
    | error error reached =>
      rw [reply, hnext] at hreply
      cases hreply
    | ok pulled reached =>
      rw [reply, hnext] at hreply
      rw [called, hnext] at hreached hrest htells
      cases hreply
      have hcurrent : reached.current = some token := htells.current
      have hline : reached.line = line := htells.line
      refine ⟨reached, rfl, ?_, hreached, hrest.symm⟩
      simp [lineNumber, hcurrent, hline]
  · rw [hnone] at hpending
    cases hpending

/-- A pull reports the end when nothing is pending. -/
theorem next_of_pending_nil {lexer : Lexer} (haligned : lexer.Aligned)
    (hpending : lexer.pending = []) :
    ∃ reached, next lexer = .ok none reached ∧ reached.Aligned ∧ reached.pending = [] := by
  obtain ⟨hcalled, hreached, ⟨event, -, -, htells⟩ | ⟨_, -, hreply, -, htells⟩⟩ := pull_cases haligned
  · have hsplit := htells.pending
    rw [hpending] at hsplit
    cases hsplit
  · have hrest := htells.pending
    rw [hpending, List.nil_append] at hrest
    rw [← hcalled] at hreached hrest
    cases hnext : next lexer with
    | error error reached =>
      rw [reply, hnext] at hreply
      cases hreply
    | ok pulled reached =>
      rw [reply, hnext] at hreply
      rw [called, hnext] at hreached hrest
      cases hreply
      exact ⟨reached, rfl, hreached, hrest.symm⟩

/-- Draining gives everything that is pending. -/
theorem results_eq_pending {lexer : Lexer} (haligned : lexer.Aligned) :
    results lexer = lexer.pending.map Event.result := by
  induction hpending : lexer.pending generalizing lexer with
  | nil =>
    obtain ⟨reached, hnext, -⟩ := next_of_pending_nil haligned hpending
    exact results_of_end hnext
  | cons event rest ih =>
    obtain ⟨hcalled, hreached, ⟨told, -, hreply, htells⟩ | ⟨_, -, -, hnone, -⟩⟩ :=
      pull_cases haligned
    · have hsplit := htells.pending
      rw [hpending, List.singleton_append] at hsplit
      obtain ⟨rfl, hrest⟩ := List.cons.inj hsplit
      have htail := ih hreached hrest.symm
      rw [← hcalled] at htail
      rw [List.map_cons, ← htail]
      cases hnext : next lexer with
      | error error reached =>
        rw [reply, hnext] at hreply
        rw [called, hnext]
        cases event <;> cases hreply
        exact results_of_error hnext
      | ok pulled reached =>
        rw [reply, hnext] at hreply
        rw [called, hnext]
        cases event <;> cases hreply
        exact results_of_token hnext
    · rw [hnone] at hpending
      cases hpending

/-- Draining a lexer that has only tokens to tell gives these tokens with their lines. -/
theorem drain_of_pending {lexer : Lexer} (haligned : lexer.Aligned) {placed : List (Token × Nat)}
    (hpending : lexer.pending = placed.map fun item => .token item.1 item.2) :
    (drain lexer).1.toList = placed.map tokenItem := by
  induction placed generalizing lexer with
  | nil =>
    obtain ⟨reached, hnext, -⟩ := next_of_pending_nil haligned hpending
    rw [drain, drainFrom]
    split <;> simp_all
  | cons first rest ih =>
    rw [List.map_cons] at hpending
    obtain ⟨reached, hnext, hline, hreached, hrest⟩ := next_of_pending haligned hpending
    have htail := ih hreached hrest
    rw [drain] at htail
    rw [drain, drainFrom]
    split
    · simp_all
    · next token after hpull =>
      rw [hnext] at hpull
      cases hpull
      rw [drainFrom_toList, htail, hline]
      rfl
    · simp_all

end Lexer

end Jack
