/-
Lexing goes on from line to line.

Between two lines a lexer remembers whether it is inside a block comment and how many lines it
read, and nothing else. `commentAfter` computes the first from the lines that were read, so the
events of lines behind others are those of these lines, begun in that state and with higher line
numbers (`eventsFrom_append`, `eventsFrom_add`). A string constant never comes into this: a line
that leaves one open is faulty, and behind a faulty line a lexer is in code.

A line feed behind some bytes adds a line to them only if they end with a line feed or are empty,
and then the line is empty and tells nothing.
-/
import Jack.Proofs.Draining

set_option autoImplicit false

namespace Jack

/-! ## Line numbers -/

/-- An error, further down by some lines. -/
def Error.movedDown (lines : Nat) : Error → Error
  | .invalidCharacter line c => .invalidCharacter (line + lines) c
  | .invalidToken line lexeme => .invalidToken (line + lines) lexeme
  | .integerOutOfRange line lexeme => .integerOutOfRange (line + lines) lexeme
  | .unterminatedString line => .unterminatedString (line + lines)
  | .expected line wanted found => .expected (line + lines) wanted found
  | .tooManyArguments line callee => .tooManyArguments (line + lines) callee
  | .duplicateName line name => .duplicateName (line.map (· + lines)) name
  | .undeclaredName line name => .undeclaredName (line + lines) name
  | .wrongTokenKind wanted found => .wrongTokenKind wanted found
  | .io cause => .io cause

/-- An event, further down by some lines. -/
def Event.movedDown (lines : Nat) : Event → Event
  | .token found line => .token found (line + lines)
  | .error met => .error (met.movedDown lines)

theorem Lexeme.Fault.error_add (fault : Lexeme.Fault) (number lines : Nat) :
    fault.error (number + lines) = (fault.error number).movedDown lines := by
  cases fault <;> rfl

/-- What a lexeme is does not depend on its line. -/
theorem Lexeme.classify_add (number lines : Nat) (text : List Char) :
    Lexeme.classify ⟨number + lines, text⟩ =
      (Lexeme.classify ⟨number, text⟩).mapError (Error.movedDown lines) := by
  unfold Lexeme.classify
  cases text with
  | nil => rfl
  | cons first rest =>
    dsimp only
    -- the choices look at the text alone, so both sides make the same ones
    by_cases hquote : first = '"'
    · rw [if_pos hquote, if_pos hquote]
      rfl
    rw [if_neg hquote, if_neg hquote]
    by_cases hdelimiter : (rest.isEmpty && isDelimiter first) = true
    · rw [if_pos hdelimiter, if_pos hdelimiter]
      rfl
    rw [if_neg hdelimiter, if_neg hdelimiter]
    cases Keyword.ofText? (String.ofList (first :: rest)) with
    | some keyword => rfl
    | none =>
      by_cases hdigits : (first :: rest).all Text.isDigit = true
      · dsimp only
        rw [if_pos hdigits, if_pos hdigits]
        cases readDecimal Token.maxInteger 0 (first :: rest) <;> rfl
      · dsimp only
        rw [if_neg hdigits, if_neg hdigits]
        split <;> rfl

theorem Lexeme.event_add (number lines : Nat) (text : List Char) :
    Lexeme.event ⟨number + lines, text⟩ = (Lexeme.event ⟨number, text⟩).movedDown lines := by
  unfold Lexeme.event
  rw [Lexeme.classify_add]
  cases Lexeme.classify ⟨number, text⟩ <;> rfl

/-- The lines of a source tell the same further down. -/
theorem eventsFrom_add (inComment : Bool) (read lines : Nat) (source : Source) :
    eventsFrom inComment (read + lines) source =
      (eventsFrom inComment read source).map (Event.movedDown lines) := by
  have hnext : ∀ number : Nat, number + lines + 1 = number + 1 + lines := by omega
  fun_induction eventsFrom inComment read source with
  | case1 => rfl
  | case2 inComment read cause rest ih =>
    rw [eventsFrom, ih]
    rfl
  | case3 inComment read characters rest fault hscan ih =>
    rw [eventsFrom_text, hscan, lineEvents, hnext, ih, fault.error_add (read + 1)]
    rfl
  | case4 inComment read characters rest scan hscan ih =>
    rw [eventsFrom_text, hscan, lineEvents, hnext, ih, List.map_append, List.map_map]
    simp only [Lexeme.event_add, Function.comp_def]

/-! ## From lines to lines -/

/-- Whether the line behind some lines begins inside a block comment. -/
def commentAfter (inComment : Bool) : Source → Bool
  | [] => inComment
  | .unreadable _ :: rest => commentAfter inComment rest
  | .text characters :: rest =>
    match Lexeme.scanLine inComment characters with
    | .error _ => commentAfter false rest
    | .ok scan => commentAfter scan.inComment rest

theorem commentAfter_text (inComment : Bool) (characters : List Char) (rest : Source) :
    commentAfter inComment (.text characters :: rest) =
      match Lexeme.scanLine inComment characters with
      | .error _ => commentAfter false rest
      | .ok scan => commentAfter scan.inComment rest := rfl

theorem commentAfter_append (inComment : Bool) (first second : Source) :
    commentAfter inComment (first ++ second) = commentAfter (commentAfter inComment first) second := by
  fun_induction commentAfter inComment first with
  | case1 => rfl
  | case2 inComment cause rest ih => exact ih
  | case3 inComment characters rest fault hscan ih =>
    rw [List.cons_append, commentAfter_text, hscan]
    exact ih
  | case4 inComment characters rest scan hscan ih =>
    rw [List.cons_append, commentAfter_text, hscan]
    exact ih

theorem numberedLines_append (first second : Source) :
    numberedLines (first ++ second) = numberedLines first + numberedLines second :=
  List.countP_append

/-- **Lines behind lines.** They tell what they tell by themselves, begun where the lines before
end. -/
theorem eventsFrom_append (inComment : Bool) (read : Nat) (first second : Source) :
    eventsFrom inComment read (first ++ second) =
      eventsFrom inComment read first ++
        eventsFrom (commentAfter inComment first) (read + numberedLines first) second := by
  have hnumber : ∀ (characters : List Char) (rest : Source) (number : Nat),
      number + numberedLines (.text characters :: rest) = number + 1 + numberedLines rest := by
    intro characters rest number
    rw [show Line.text characters :: rest = [.text characters] ++ rest from rfl,
      numberedLines_append, Nat.add_assoc]
    rfl
  fun_induction eventsFrom inComment read first with
  | case1 => rfl
  | case2 inComment read cause rest ih =>
    rw [List.cons_append, eventsFrom, ih, commentAfter]
    rfl
  | case3 inComment read characters rest fault hscan ih =>
    rw [List.cons_append, eventsFrom_text, hscan, lineEvents, ih, commentAfter_text, hscan, hnumber,
      List.cons_append]
  | case4 inComment read characters rest scan hscan ih =>
    rw [List.cons_append, eventsFrom_text, hscan, lineEvents, ih, commentAfter_text, hscan, hnumber,
      List.append_assoc]

/-- Lines behind lines that end outside a block comment. -/
theorem events_append {first : Source} (hcode : commentAfter false first = false)
    (second : Source) :
    events (first ++ second) =
      events first ++ (events second).map (Event.movedDown (numberedLines first)) := by
  rw [events, eventsFrom_append, hcode, Nat.zero_add, events, events, ← eventsFrom_add, Nat.zero_add]

namespace Source

/-! ## Cutting at a line feed -/

/-- Lines that were cut off stay in front. -/
theorem cutLines_lines (line : List UInt8) (lines : List (List UInt8)) (bytes : List UInt8) :
    cutLines line lines bytes = lines.reverse ++ cutLines line [] bytes := by
  induction bytes generalizing line lines with
  | nil =>
    rw [cutLines, cutLines]
    split <;> simp
  | cons byte rest ih =>
    rw [cutLines, cutLines]
    split
    · rw [ih [] (line.reverse :: lines), ih [] [line.reverse], List.reverse_cons,
        List.reverse_singleton, List.append_assoc]
    · exact ih _ _

theorem cutLines_append_feed (line before behind : List UInt8) :
    cutLines line [] (before ++ lineFeed :: behind) =
      cutLines line [] (before ++ [lineFeed]) ++ cutLines [] [] behind := by
  induction before generalizing line with
  | nil =>
    rw [List.nil_append, List.nil_append, cutLines, cutLines, if_pos rfl, if_pos rfl,
      cutLines_lines [] [line.reverse] behind]
    rfl
  | cons byte before ih =>
    rw [List.cons_append, List.cons_append, cutLines, cutLines]
    split
    · rw [cutLines_lines, cutLines_lines [] [line.reverse] (before ++ [lineFeed]), ih,
        List.append_assoc]
    · exact ih _

/-- Bytes are cut at each line feed. -/
theorem ofBytes_append_feed (before behind : List UInt8) :
    ofBytes (before ++ lineFeed :: behind) =
      ofBytes (before ++ [lineFeed]) ++ ofBytes behind := by
  rw [ofBytes, cutLines_append_feed, List.map_append]
  rfl

theorem cutLines_feed (line before : List UInt8) :
    cutLines line [] (before ++ [lineFeed]) = cutLines line [] before ∨
      cutLines line [] (before ++ [lineFeed]) = cutLines line [] before ++ [[]] := by
  induction before generalizing line with
  | nil =>
    by_cases hline : line = []
    · right
      rw [hline]
      rfl
    · left
      simp [cutLines, hline]
  | cons byte before ih =>
    rw [List.cons_append, cutLines, cutLines]
    split
    · rw [cutLines_lines, cutLines_lines [] [line.reverse] before]
      rcases ih [] with h | h
      · exact .inl (congrArg _ h)
      · right
        rw [h, List.append_assoc]
    · exact ih _

/-- A line feed at the end adds an empty line or none. -/
theorem ofBytes_feed (bytes : List UInt8) :
    ofBytes (bytes ++ [lineFeed]) = ofBytes bytes ∨
      ofBytes (bytes ++ [lineFeed]) = ofBytes bytes ++ [.text []] := by
  rcases cutLines_feed [] bytes with h | h
  · left
    rw [ofBytes, h]
    rfl
  · right
    rw [ofBytes, h, List.map_append]
    rfl

end Source

/-- An empty line tells nothing and leaves the comment open or closed. -/
theorem empty_line (inComment : Bool) (read : Nat) :
    eventsFrom inComment read [.text []] = [] ∧ commentAfter inComment [.text []] = inComment := by
  cases inComment <;> exact ⟨rfl, rfl⟩

/-- So does a line feed at the end. -/
theorem feed_tells_nothing (bytes : List UInt8) :
    events (Source.ofBytes (bytes ++ [Source.lineFeed])) = events (Source.ofBytes bytes) ∧
      commentAfter false (Source.ofBytes (bytes ++ [Source.lineFeed])) =
        commentAfter false (Source.ofBytes bytes) := by
  rcases Source.ofBytes_feed bytes with h | h
  · rw [h]
    exact ⟨rfl, rfl⟩
  · obtain ⟨hevents, hcomment⟩ := empty_line (commentAfter false (Source.ofBytes bytes))
      (0 + numberedLines (Source.ofBytes bytes))
    rw [h, events, eventsFrom_append, hevents, List.append_nil, commentAfter_append, hcomment]
    exact ⟨rfl, rfl⟩

namespace Lexer

/-! ## What a lexer remembers -/

/-- A lexer over some lines has read the first of them and remembers of them only their number
and whether they end inside a block comment. -/
def Remembers (source : Source) (lexer : Lexer) : Prop :=
  ∃ read, source = read ++ lexer.lines ∧ lexer.linesRead = numberedLines read ∧
    lexer.inComment = commentAfter false read

theorem remembers_start (source : Source) : Remembers source { lines := source } :=
  ⟨[], rfl, rfl, rfl⟩

theorem remembers_readLine {source : Source} {lexer : Lexer} {line : Line} {rest : Source}
    (h : Remembers source lexer) (hlines : lexer.lines = line :: rest) :
    Remembers source (after (lexer.readLine line rest)) := by
  obtain ⟨read, hsource, hread, hcomment⟩ := h
  have hsplit : source = (read ++ [line]) ++ rest := by
    rw [hsource, hlines, List.append_assoc]
    rfl
  rcases readLine_cases lexer line rest with
    ⟨cause, rfl, hresult⟩ | ⟨characters, faulty, rfl, hscan, hresult⟩ |
      ⟨characters, scan, rfl, hscan, hresult⟩
  all_goals
    rw [hresult]
    refine ⟨_, hsplit, ?_, ?_⟩
    · rw [numberedLines_append, ← hread]
      rfl
    · rw [commentAfter_append, ← hcomment, commentAfter]
      first | rw [hscan]; rfl | rfl

theorem invariant_remembers (source : Source) : Invariant (Remembers source) where
  reading := fun h hlines _ => remembers_readLine h hlines
  taking := by
    intro lexer h
    unfold take
    split
    · exact h
    · split <;> exact h

/-- Drained, a lexer remembers all lines. -/
theorem inComment_drain (source : Source) :
    (drain { lines := source }).2.inComment = commentAfter false source := by
  obtain ⟨read, hsource, -, hcomment⟩ :=
    (invariant_remembers source).drain (remembers_start source)
  rw [(spent_drain { lines := source }).lines, List.append_nil] at hsource
  rw [hcomment, hsource]

/-! ## Faulty lines -/

/-- How a lexer over some lines stands when it has just told of a faulty line: it is in code, and
nothing waits. It told what the lines before have to tell, and it will tell what the lines behind
have to tell by themselves, further down. -/
structure Recovered (source : Source) (delivered : List (Except Error Token)) (error : Error)
    (lexer : Lexer) : Prop where
  code : lexer.inComment = false
  queue : lexer.queue = []
  lost : ∃ read characters, source = read ++ .text characters :: lexer.lines ∧
    lexer.linesRead = numberedLines read + 1 ∧
    delivered = (events read).map Event.result ++ [.error error]
  rest : told lexer = (events lexer.lines).map (Event.movedDown lexer.linesRead)

/-- **Only the line is lost.** After each error of a line a lexer has recovered. -/
theorem recovered_of_fault (source : Source) (calls : List Call) {call : Call}
    {fault : Lexeme.Fault} {number : Nat}
    (hfault : .error (fault.error number) ∈
      ((calledAll { lines := source } calls).reply call).delivered) :
    Recovered source ((replies { lines := source } (calls ++ [call])).flatMap Reply.delivered)
      (fault.error number) (calledAll { lines := source } (calls ++ [call])) := by
  obtain ⟨told, hdelivered, htells, haligned⟩ := tells_run (aligned_start source) (calls ++ [call])
  have hcalled : calledAll { lines := source } (calls ++ [call]) =
      (calledAll { lines := source } calls).called call := by
    rw [calledAll, List.foldl_append]
    rfl
  have hpending := htells.pending
  rw [hdelivered]
  rw [hcalled] at hpending haligned ⊢
  -- the line that was read last, and what the lexer remembered in front of it
  obtain ⟨middle, line, rest, ⟨read, hsource, hread, hcomment⟩, hlines, hqueue, hresult⟩ :=
    (invariant_remembers source).of_fault
      ((invariant_remembers source).calledAll (remembers_start source) calls) hfault
  rcases readLine_cases middle line rest with
    ⟨cause, rfl, hcase⟩ | ⟨characters, faulty, rfl, hscan, hcase⟩ |
      ⟨characters, scan, rfl, hscan, hcase⟩
  · rw [hcase] at hresult
    cases fault <;> cases hresult
  · rw [hcase] at hresult
    obtain ⟨herror, hreached⟩ := EStateM.Result.error.inj hresult
    have hsource' : source = read ++ .text characters :: rest := by rw [hsource, hlines]
    have hevents : events source = events read ++ [.error (fault.error number)] ++
        eventsFrom false (middle.linesRead + 1) rest := by
      rw [← herror, hsource', events, eventsFrom_append, eventsFrom_text, ← hcomment, hscan,
        lineEvents, hread, Nat.zero_add, List.append_assoc]
      rfl
    have hleft : pending { middle with
        lines := rest, linesRead := middle.linesRead + 1, inComment := false } =
        eventsFrom false (middle.linesRead + 1) rest := by
      rw [pending, hqueue]
      rfl
    rw [← hreached] at hpending haligned ⊢
    rw [hleft] at hpending
    refine ⟨rfl, hqueue, ⟨read, characters, hsource', by rw [← hread], ?_⟩, ?_⟩
    · have htold : told = events read ++ [.error (fault.error number)] :=
        (List.append_cancel_right (hevents.symm.trans hpending)).symm
      rw [htold, List.map_append]
      rfl
    · rw [told_eq_pending haligned, hleft, events, ← eventsFrom_add, Nat.zero_add]
  · rw [hcase] at hresult
    cases hresult

/-- **Lexing goes on.** If some bytes leave a lexer outside a block comment, a line feed and other
bytes behind them tell what these tell by themselves, further down by the lines in front. After
the error of a line, wherever it comes up, a lexer has recovered. -/
theorem lexing_goes_on (bytes behind : List UInt8) :
    ((drain (ofBytes bytes)).2.inComment = false →
      told (ofBytes (bytes ++ Source.lineFeed :: behind)) =
        told (ofBytes bytes) ++ (told (ofBytes behind)).map
          (Event.movedDown (numberedLines (Source.ofBytes (bytes ++ [Source.lineFeed]))))) ∧
    ∀ (calls : List Call) (call : Call) (fault : Lexeme.Fault) (number : Nat),
      .error (fault.error number) ∈ (((ofBytes bytes).calledAll calls).reply call).delivered →
      Recovered (Source.ofBytes bytes)
        (((ofBytes bytes).replies (calls ++ [call])).flatMap Reply.delivered)
        (fault.error number) ((ofBytes bytes).calledAll (calls ++ [call])) := by
  constructor
  · intro hcode
    obtain ⟨hevents, hcomment⟩ := feed_tells_nothing bytes
    rw [ofBytes, inComment_drain, ← hcomment] at hcode
    rw [told_ofBytes, told_ofBytes, told_ofBytes, Source.ofBytes_append_feed, events_append hcode,
      hevents]
  · exact fun calls call fault number hfault => recovered_of_fault _ calls hfault

/-- A line with a character of no token, before and behind a line feed. -/
theorem lexing_goes_on_behind_a_fault :
    told (ofBytes ("x\n# y".toUTF8.data.toList ++ Source.lineFeed :: "z #".toUTF8.data.toList)) =
        [.token (.identifier "x") 1, .error (.invalidCharacter 2 '#'),
          .error (.invalidCharacter 3 '#')] ∧
      Recovered (Source.ofBytes "x\n# y".toUTF8.data.toList)
        [.ok (.identifier "x"), .error (.invalidCharacter 2 '#')] (.invalidCharacter 2 '#')
        ((ofBytes "x\n# y".toUTF8.data.toList).calledAll [.next, .next]) := by
  constructor
  · have hcode : (drain (ofBytes "x\n# y".toUTF8.data.toList)).2.inComment = false :=
      (inComment_drain _).trans (by decide +kernel)
    rw [(lexing_goes_on _ _).1 hcode, told_ofBytes, told_ofBytes]
    rfl
  · exact (lexing_goes_on _ []).2 [.next] .next (.invalidCharacter '#') 2 (by decide +kernel)

end Lexer

end Jack
