/-
The shapes of lexemes and of tokens.

Bytes are cut into lines before they are decoded, so no line of a source holds a line feed
(`Source.isCut_ofBytes`), and what a scan finds has only characters of its line, up to the quote
in front of a string constant (`Lexeme.forall_of_scanFrom`). With what is known of the scan
(`Lexeme.Formed`) this fixes the shape of every lexeme that can wait in a queue: it is not empty,
and a quote in it comes first. `classify` relies on both.

The shape is an invariant of the lexer (`Lexer.Sound`): reading a line brings it about for the
lexemes of the line, and taking a lexeme keeps it for the others. A line with a fault and a line
that is not text add nothing to the queue, so they need no condition.
-/
import Jack.Proofs.Draining
import Jack.Proofs.FileBuild
import Jack.Proofs.Names

set_option autoImplicit false

namespace Jack

/-! ## Lines without line feeds -/

namespace Source

/-- No line of a source holds a line feed. -/
def IsCut (source : Source) : Prop := ∀ characters, .text characters ∈ source → '\n' ∉ characters

/-- Cut bytes hold no byte that ends a line. -/
theorem lineFeed_not_mem_of_mem_cutLines {line : List UInt8} {lines : List (List UInt8)}
    {bytes found : List UInt8} (hline : lineFeed ∉ line) (hlines : ∀ before ∈ lines, lineFeed ∉ before)
    (hfound : found ∈ cutLines line lines bytes) : lineFeed ∉ found := by
  have hended : ∀ before ∈ line.reverse :: lines, lineFeed ∉ before :=
    List.forall_mem_cons.2 ⟨by simpa using hline, hlines⟩
  induction bytes generalizing line lines with
  | nil =>
    rw [cutLines] at hfound
    split at hfound
    · exact hlines found (List.mem_reverse.1 hfound)
    · exact hended found (List.mem_reverse.1 hfound)
  | cons byte rest ih =>
    rw [cutLines] at hfound
    by_cases hbyte : byte = lineFeed
    · rw [if_pos hbyte] at hfound
      exact ih List.not_mem_nil hended hfound
        (List.forall_mem_cons.2 ⟨by simp, hended⟩)
    · rw [if_neg hbyte] at hfound
      have hgrown : lineFeed ∉ byte :: line := by simp [hline, Ne.symm hbyte]
      exact ih hgrown hlines hfound
        (List.forall_mem_cons.2 ⟨by simpa only [List.mem_reverse] using hgrown, hlines⟩)

/-- A line that is cut off before it is decoded has no line feed. -/
theorem feed_not_mem_of_decodeLine {bytes : List UInt8} {characters : List Char}
    (hbytes : lineFeed ∉ bytes) (hdecode : decodeLine bytes = .text characters) :
    '\n' ∉ characters := by
  obtain ⟨text, rfl⟩ := exists_encoded_of_decodeLine hdecode
  rw [decodeLine_encoded, Line.text.injEq] at hdecode
  intro hmem
  have htext : '\n' ∈ text := by
    rw [← hdecode, trimReturns, List.mem_reverse] at hmem
    exact List.mem_reverse.1 ((List.dropWhile_sublist _).subset hmem)
  exact hbytes (List.mem_flatMap.2 ⟨'\n', htext, List.mem_singleton_self _⟩)

theorem isCut_ofBytes (bytes : List UInt8) : (ofBytes bytes).IsCut := by
  intro characters hmem
  obtain ⟨line, hline, hdecode⟩ := List.mem_map.1 hmem
  refine feed_not_mem_of_decodeLine ?_ hdecode
  exact lineFeed_not_mem_of_mem_cutLines List.not_mem_nil
    (fun _ hbefore => absurd hbefore List.not_mem_nil) hline

theorem IsCut.tail {line : Line} {rest : Source} (h : IsCut (line :: rest)) : IsCut rest :=
  fun characters hmem => h characters (List.mem_cons_of_mem _ hmem)

end Source

/-! ## Lexemes -/

namespace Lexeme

/-- The characters of what a scan has begun. -/
def Mode.begun : Mode → List Char
  | .code word => word
  | .string content => content
  | .comment => []

section Characters

variable {p : Char → Prop} {word : List Char} {found : List (List Char)}

theorem forall_flush (hword : ∀ c ∈ word, p c) (hfound : ∀ text ∈ found, ∀ c ∈ text, p c) :
    ∀ text ∈ flush word found, ∀ c ∈ text, p c := by
  unfold flush
  split
  · exact hfound
  · exact List.forall_mem_cons.2 ⟨fun c hc => hword c (List.mem_reverse.1 hc), hfound⟩

/-- What holds of the characters of a line and of the quote holds of the characters of its
lexemes. -/
theorem forall_of_scanFrom (hquote : p '"') {mode : Mode} {line : List Char} {scan : Scan}
    (hbegun : ∀ c ∈ mode.begun, p c) (hfound : ∀ text ∈ found, ∀ c ∈ text, p c)
    (hline : ∀ c ∈ line, p c) (hscan : scanFrom mode found line = .ok scan) :
    ∀ text ∈ scan.lexemes, ∀ c ∈ text, p c := by
  have hnothing : ∀ c ∈ ([] : List Char), p c := fun _ hc => absurd hc List.not_mem_nil
  fun_induction scanFrom mode found line with
  | case1 found =>
    cases hscan
    exact fun text hmem => hfound text (List.mem_reverse.1 hmem)
  | case2 found rest ih =>
    exact ih hnothing hfound (List.forall_mem_cons.1 (List.forall_mem_cons.1 hline).2).2 hscan
  | case3 found c rest hopen ih =>
    exact ih hnothing hfound (List.forall_mem_cons.1 hline).2 hscan
  | case4 content found => cases hscan
  -- the quote in front of a string constant is the one character that a lexeme adds
  | case5 content found rest ih =>
    refine ih hnothing ?_ (List.forall_mem_cons.1 hline).2 hscan
    refine List.forall_mem_cons.2 ⟨List.forall_mem_cons.2 ⟨hquote, ?_⟩, hfound⟩
    exact fun c hc => hbegun c (List.mem_reverse.1 hc)
  | case6 content found c rest hc ih =>
    obtain ⟨hfirst, hrest⟩ := List.forall_mem_cons.1 hline
    exact ih (List.forall_mem_cons.2 ⟨hfirst, hbegun⟩) hfound hrest hscan
  | case7 word found =>
    cases hscan
    exact fun text hmem => forall_flush hbegun hfound text (List.mem_reverse.1 hmem)
  | case8 word found rest =>
    cases hscan
    exact fun text hmem => forall_flush hbegun hfound text (List.mem_reverse.1 hmem)
  | case9 word found rest ih =>
    exact ih hnothing (forall_flush hbegun hfound)
      (List.forall_mem_cons.1 (List.forall_mem_cons.1 hline).2).2 hscan
  | case10 word found rest _ _ ih =>
    exact ih hnothing (forall_flush hbegun hfound) (List.forall_mem_cons.1 hline).2 hscan
  | case11 word found c rest _ _ _ _ ih =>
    exact ih hnothing (forall_flush hbegun hfound) (List.forall_mem_cons.1 hline).2 hscan
  -- a delimiter is a lexeme of its own, behind the word that it ends
  | case12 word found c rest _ _ _ _ hdelimiter ih =>
    obtain ⟨hfirst, hrest⟩ := List.forall_mem_cons.1 hline
    refine ih hnothing (List.forall_mem_cons.2 ⟨?_, forall_flush hbegun hfound⟩) hrest hscan
    exact List.forall_mem_singleton.2 hfirst
  | case13 word found c rest _ _ _ hspace hdelimiter hpart ih =>
    obtain ⟨hfirst, hrest⟩ := List.forall_mem_cons.1 hline
    exact ih (List.forall_mem_cons.2 ⟨hfirst, hbegun⟩) hfound hrest hscan
  | case14 word found c rest => cases hscan

end Characters

/-- A text that can wait in the queue of a lexer. -/
structure Sound (text : List Char) : Prop where
  formed : Formed text
  feed : '\n' ∉ text

/-- Scanning a line without a line feed finds only such texts. -/
theorem sound_of_scanLine {inComment : Bool} {line : List Char} {scan : Scan}
    (hline : '\n' ∉ line) (hscan : scanLine inComment line = .ok scan) :
    ∀ text ∈ scan.lexemes, Sound text := by
  intro text htext
  refine ⟨formed_of_scanLine hscan text htext, fun hfeed => ?_⟩
  refine forall_of_scanFrom (p := (· ≠ '\n')) (by decide) ?_
    (fun _ hmem => absurd hmem List.not_mem_nil) ?_ hscan text htext '\n' hfeed rfl
  · cases inComment <;> exact fun _ hc => absurd hc List.not_mem_nil
  · rintro c hc rfl
    exact hline hc

theorem Formed.ne_nil {text : List Char} (h : Formed text) : text ≠ [] := by
  cases h with
  | string hcontent => exact List.cons_ne_nil _ _
  | delimiter hc => exact List.cons_ne_nil _ _
  | word hne hword => exact hne

/-- Neither words nor delimiters have a quote in them, and a string constant has only the one
in front. -/
theorem Formed.quote_first {text front back : List Char} (h : Formed text)
    (hquote : text = front ++ '"' :: back) : front = [] := by
  cases h with
  | @string content hcontent =>
    cases front with
    | nil => rfl
    | cons c front =>
      have htail : content = front ++ '"' :: back := (List.cons.inj hquote).2
      refine absurd ?_ hcontent
      rw [htail]
      exact List.mem_append_right _ List.mem_cons_self
  | @delimiter c hc =>
    have hmem : '"' ∈ [c] := hquote ▸ List.mem_append_right _ List.mem_cons_self
    exact absurd (List.mem_singleton.1 hmem).symm (isDelimiter_plain hc).2.1
  | word hne hword =>
    have hmem : '"' ∈ text := hquote ▸ List.mem_append_right _ List.mem_cons_self
    exact absurd (hword _ hmem) (by decide +kernel)

/-! ## From lexemes to tokens -/

/-- Digits that are read give a number within the limit. -/
theorem readDecimal_le {limit value read : Nat} {digits : List Char}
    (hread : readDecimal limit value digits = some read) : read ≤ limit := by
  rw [readDecimal_eq] at hread
  split at hread
  · next hle =>
    cases hread
    exact hle
  · cases hread

/-- A word that begins like a name and is no keyword is a name. -/
theorem isName_of_word {word : String} {first : Char} {rest : List Char}
    (htext : word.toList = first :: rest) (hword : ∀ c ∈ word.toList, GoesOn c)
    (hfree : Keyword.ofText? word = none) (hstart : Text.isNameStart first = true) :
    IsName word where
  start := ⟨first, by rw [htext]; rfl, hstart⟩
  part := fun c hc => (hword c hc).part
  apart := fun c hc => ⟨(hword c hc).space, (hword c hc).delimiter⟩
  free := hfree

/-- A word is a keyword, an integer within the limit or a name, if it is a token at all. -/
theorem wellFormed_of_classify_word {word : String} {line : Nat} {token : Token}
    (hne : word.toList ≠ []) (hword : ∀ c ∈ word.toList, GoesOn c)
    (hclassify : classify ⟨line, word.toList⟩ = .ok token) : token.WellFormed := by
  obtain ⟨first, rest, htext⟩ := List.exists_cons_of_ne_nil hne
  have hfirst : GoesOn first := hword first (by rw [htext]; exact List.mem_cons_self)
  rw [classify_word htext hfirst] at hclassify
  cases hfree : Keyword.ofText? word with
  | some keyword =>
    rw [hfree] at hclassify
    cases hclassify
    trivial
  | none =>
    rw [hfree, Option.elim_none] at hclassify
    -- only digits, or a word that begins like a name
    split at hclassify
    · cases hread : readDecimal Token.maxInteger 0 word.toList with
      | none =>
        rw [hread] at hclassify
        cases hclassify
      | some value =>
        rw [hread] at hclassify
        cases hclassify
        exact readDecimal_le hread
    · split at hclassify
      · next hstart =>
        cases hclassify
        exact isName_of_word htext hword hfree hstart
      · cases hclassify

/-- **From shapes to tokens.** What can wait in a queue becomes a well-formed token, if it
becomes one. -/
theorem Sound.wellFormed {lexeme : Lexeme} {token : Token} (h : Sound lexeme.text)
    (hclassify : lexeme.classify = .ok token) : token.WellFormed := by
  obtain ⟨line, text⟩ := lexeme
  obtain ⟨hformed, hfeed⟩ := h
  cases hformed with
  | @string content hcontent =>
    have htoken : token = .string (String.ofList content) := by simpa [classify] using hclassify.symm
    rw [htoken]
    refine ⟨by rwa [String.toList_ofList], ?_⟩
    rw [String.toList_ofList]
    exact fun hmem => hfeed (List.mem_cons_of_mem _ hmem)
  | @delimiter c hc =>
    have hplain := (isDelimiter_plain hc).2.1
    have htoken : token = .symbol c := by simpa [classify, hplain, hc] using hclassify.symm
    rw [htoken]
    exact hc
  | word hne hword =>
    have hlist : text = (String.ofList text).toList := String.toList_ofList.symm
    rw [hlist] at hne hword hclassify
    exact wellFormed_of_classify_word hne hword hclassify

/-- A lexeme that has a character is not reported as an empty one. -/
theorem classify_ne_empty {lexeme : Lexeme} (hne : lexeme.text ≠ []) (line : Nat) :
    lexeme.classify ≠ .error (.invalidToken line "") := by
  intro hclassify
  rcases error_of_classify hclassify with herror | herror
  · have htext : String.ofList lexeme.text = "" := (Error.invalidToken.inj herror).2.symm
    have hlist := congrArg String.toList htext
    rw [String.toList_ofList] at hlist
    exact hne hlist
  · cases herror

end Lexeme

/-! ## Events -/

/-- An event that lines without line feeds can tell: a token is well formed, and no lexeme is
reported as empty. -/
def Event.Sound : Event → Prop
  | .token found _ => found.WellFormed
  | .error met => ∀ line, met ≠ .invalidToken line ""

theorem Lexeme.Sound.event {lexeme : Lexeme} (h : Sound lexeme.text) : lexeme.event.Sound := by
  unfold Lexeme.event
  cases hclassify : lexeme.classify with
  | ok token => exact h.wellFormed hclassify
  | error error =>
    rintro line rfl
    exact classify_ne_empty h.formed.ne_nil line hclassify

/-- Whatever state the lines are read in, all their events are sound. -/
theorem Source.IsCut.sound {source : Source} (hcut : source.IsCut) {inComment : Bool}
    {linesRead : Nat} {event : Event} (hmem : event ∈ eventsFrom inComment linesRead source) :
    event.Sound := by
  fun_induction eventsFrom inComment linesRead source with
  | case1 => exact absurd hmem List.not_mem_nil
  | case2 inComment linesRead cause rest ih =>
    rcases List.mem_cons.1 hmem with rfl | hrest
    · rintro line ⟨⟩
    · exact ih hcut.tail hrest
  | case3 inComment linesRead characters rest fault hscan ih =>
    rcases List.mem_cons.1 hmem with rfl | hrest
    · cases fault <;> rintro line ⟨⟩
    · exact ih hcut.tail hrest
  | case4 inComment linesRead characters rest scan hscan ih =>
    rcases List.mem_append.1 hmem with hline | hrest
    · obtain ⟨text, htext, rfl⟩ := List.mem_map.1 hline
      have hfeed := hcut characters List.mem_cons_self
      exact (Lexeme.sound_of_scanLine hfeed hscan text htext).event
    · exact ih hcut.tail hrest

/-! ## The invariant of a lexer -/

namespace Lexer

/-- The lexemes that wait have their shape, and the lines not yet read hold no line feed. -/
structure Sound (lexer : Lexer) : Prop where
  queue : ∀ lexeme ∈ lexer.queue, Lexeme.Sound lexeme.text
  lines : lexer.lines.IsCut

theorem sound_ofBytes (bytes : List UInt8) : (ofBytes bytes).Sound where
  queue := fun _ hmem => absurd hmem List.not_mem_nil
  lines := Source.isCut_ofBytes bytes

theorem sound_readLine {lexer : Lexer} {line : Line} {rest : Source}
    (hlines : lexer.lines = line :: rest) (h : lexer.Sound) :
    (after (lexer.readLine line rest)).Sound := by
  have hcut : Source.IsCut (line :: rest) := hlines ▸ h.lines
  rcases readLine_cases lexer line rest with
    ⟨cause, rfl, hread⟩ | ⟨characters, faulty, rfl, hscan, hread⟩ |
      ⟨characters, scan, rfl, hscan, hread⟩
  · rw [hread]
    exact ⟨h.queue, hcut.tail⟩
  · rw [hread]
    exact ⟨h.queue, hcut.tail⟩
  · rw [hread]
    refine ⟨List.forall_mem_append.2 ⟨h.queue, ?_⟩, hcut.tail⟩
    intro lexeme hmem
    obtain ⟨text, htext, rfl⟩ := List.mem_map.1 hmem
    exact Lexeme.sound_of_scanLine (hcut characters List.mem_cons_self) hscan text htext

theorem sound_take {lexer : Lexer} (h : lexer.Sound) : (after (take lexer)).Sound := by
  unfold take
  split
  · exact h
  · next lexeme queue hqueue =>
    have hwaiting : ∀ waiting ∈ queue, Lexeme.Sound waiting.text := by
      intro waiting hmem
      apply h.queue
      rw [hqueue]
      exact List.mem_cons_of_mem _ hmem
    split <;> exact ⟨hwaiting, h.lines⟩

theorem invariant_sound : Invariant Sound where
  reading := fun h hlines _ => sound_readLine hlines h
  taking := sound_take

/-- What calls deliver, and the token that is current behind them, are among the events of the
source. -/
theorem mem_events_of_calls (bytes : List UInt8) (calls : List Call) :
    (∀ result ∈ ((ofBytes bytes).replies calls).flatMap Reply.delivered,
      ∃ event ∈ events (Source.ofBytes bytes), event.result = result) ∧
    ∀ token ∈ ((ofBytes bytes).calledAll calls).current,
      ∃ line, .token token line ∈ events (Source.ofBytes bytes) := by
  obtain ⟨told, hdelivered, htells, -⟩ := tells_run (aligned_ofBytes bytes) calls
  have hevents : ∀ event ∈ told, event ∈ events (Source.ofBytes bytes) := by
    intro event hmem
    rw [show events (Source.ofBytes bytes) = (ofBytes bytes).pending from rfl, htells.pending]
    exact List.mem_append_left _ hmem
  constructor
  · intro result hmem
    rw [hdelivered] at hmem
    obtain ⟨event, htold, hresult⟩ := List.mem_map.1 hmem
    exact ⟨event, hevents event htold, hresult⟩
  · intro token hcurrent
    rw [htells.current, show (ofBytes bytes).current = none from rfl, Option.or_none] at hcurrent
    -- the current token is the last one that was told
    obtain ⟨⟨last, line⟩, hlast, rfl⟩ := Option.map_eq_some_iff.1 hcurrent
    obtain ⟨event, htold, htoken⟩ := List.mem_filterMap.1 (List.mem_of_getLast? hlast)
    cases event with
    | error error => cases htoken
    | token found number =>
      cases htoken
      exact ⟨line, hevents _ htold⟩

/-- **Every token is well formed.** Whatever bytes a lexer reads and whatever it is asked, call
after call, the tokens that it delivers and the one that is current are well formed. No lexeme
that waits is empty, so none is ever reported as empty, and a quote in it is its first
character. -/
theorem every_token_is_well_formed (bytes : List UInt8) (calls : List Call) :
    (∀ token, .ok token ∈ ((ofBytes bytes).replies calls).flatMap Reply.delivered →
      token.WellFormed) ∧
    (∀ token ∈ ((ofBytes bytes).calledAll calls).current, token.WellFormed) ∧
    (∀ lexeme ∈ ((ofBytes bytes).calledAll calls).queue, lexeme.text ≠ [] ∧
      ∀ front back, lexeme.text = front ++ '"' :: back → front = []) ∧
    ∀ line, .error (.invalidToken line "") ∉
      ((ofBytes bytes).replies calls).flatMap Reply.delivered := by
  have hcut := Source.isCut_ofBytes bytes
  have hsound := invariant_sound.calledAll (sound_ofBytes bytes) calls
  obtain ⟨hdelivered, hcurrent⟩ := mem_events_of_calls bytes calls
  -- delivered tokens, the current one, waiting lexemes, and the error that is never delivered
  refine ⟨?_, ?_, ?_, ?_⟩
  · intro token hmem
    obtain ⟨event, hevent, hresult⟩ := hdelivered _ hmem
    cases event with
    | error error => cases hresult
    | token found line =>
      cases hresult
      exact hcut.sound hevent
  · intro token hmem
    obtain ⟨line, hevent⟩ := hcurrent token hmem
    exact hcut.sound hevent
  · intro lexeme hmem
    have hformed := (hsound.queue lexeme hmem).formed
    exact ⟨hformed.ne_nil, fun front back hquote => hformed.quote_first hquote⟩
  · intro line hmem
    obtain ⟨event, hevent, hresult⟩ := hdelivered _ hmem
    cases event with
    | token found number => cases hresult
    | error error =>
      cases hresult
      exact hcut.sound hevent line rfl

end Lexer

end Jack
