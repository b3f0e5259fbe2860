/-
A lexer under any sequence of calls.

`events` reads a whole source at once: it lists every token with its line and every error,
without a queue and without calls. A lexer reads line by line instead, keeps lexemes waiting
and is asked in three ways, one of which only looks ahead. `Lexer.pending` is what a lexer has
still to tell: the events of its queue and those of the lines it has not read. Every call
takes what it delivers off the front of that list (`exists_answers`), so a sequence of calls
delivers a beginning of `events` and leaves the rest (`tells_run`).

Line numbers stay in order because reading waits for an empty queue: all lexemes that wait
are of the line that was read last (`Aligned`), so no token lies before it.
-/
import Jack.Lexer.Items

set_option autoImplicit false

namespace Jack

/-! ## The events of a source -/

/-- What a source has to tell at one place: a token and its line, or an error. -/
inductive Event where
  | token (token : Token) (line : Nat)
  | error (error : Error)

namespace Event

/-- An event as a lexer returns it. -/
def result : Event → Except Error Token
  | .token found _ => .ok found
  | .error met => .error met

/-- The token of an event, with its line. -/
def token? : Event → Option (Token × Nat)
  | .token found line => some (found, line)
  | .error _ => none

end Event

/-- The last token among some events, with its line. -/
def lastToken? (told : List Event) : Option (Token × Nat) := (told.filterMap Event.token?).getLast?

/-- A lexeme that is no token is an error. -/
def Lexeme.event (lexeme : Lexeme) : Event :=
  match lexeme.classify with
  | .ok token => .token token lexeme.line
  | .error error => .error error

/-- The error of a line that has no lexemes. -/
def Lexeme.Fault.error (number : Nat) : Lexeme.Fault → Error
  | .invalidCharacter c => .invalidCharacter number c
  | .unterminatedString => .unterminatedString number

/-- Everything that the lines of a source have to tell, line by line. Lines that are not text
have no number. A faulty line is one error, and the next line begins in code. -/
def eventsFrom (inComment : Bool) (linesRead : Nat) : Source → List Event
  | [] => []
  | .unreadable cause :: rest => .error (.io cause) :: eventsFrom inComment linesRead rest
  | .text characters :: rest =>
    match Lexeme.scanLine inComment characters with
    | .error fault =>
      .error (fault.error (linesRead + 1)) :: eventsFrom false (linesRead + 1) rest
    | .ok scan =>
      scan.lexemes.map (fun text => Lexeme.event ⟨linesRead + 1, text⟩) ++
        eventsFrom scan.inComment (linesRead + 1) rest

/-- Everything that a source has to tell. -/
def events (source : Source) : List Event := eventsFrom false 0 source

/-- Whether a line is text. -/
def Line.isText : Line → Bool
  | text _ => true
  | unreadable _ => false

/-- How many lines have a number. -/
def numberedLines (lines : Source) : Nat := lines.countP Line.isText

/-- Whether an error says that the input is at its end. -/
def Error.isEndOfInput : Error → Bool
  | .expected _ "additional tokens" "end of input" => true
  | _ => false

/-- An event that can come once a number of lines was read: its line is not before them, and
it is not the end. -/
def Event.Follows (linesRead : Nat) : Event → Prop
  | .token _ line => linesRead ≤ line
  | .error met => met.isEndOfInput = false

theorem Event.Follows.mono {event : Event} {fewer more : Nat} (h : event.Follows more)
    (hle : fewer ≤ more) : event.Follows fewer := by
  cases event with
  | token token line => exact Nat.le_trans hle h
  | error error => exact h

theorem Lexeme.follows_event (lexeme : Lexeme) : lexeme.event.Follows lexeme.line := by
  unfold Lexeme.event
  cases hclassify : lexeme.classify with
  | ok token => exact Nat.le_refl _
  | error error =>
    unfold Lexeme.classify at hclassify
    grind [Event.Follows, Error.isEndOfInput]

theorem Lexeme.Fault.isEndOfInput_error (fault : Lexeme.Fault) (number : Nat) :
    (fault.error number).isEndOfInput = false := by
  cases fault <;> rfl

/-- What the lines behind some others tell comes after them. -/
theorem follows_of_mem_eventsFrom {source : Source} {inComment : Bool} {linesRead : Nat}
    {event : Event} (hmem : event ∈ eventsFrom inComment linesRead source) :
    event.Follows linesRead := by
  fun_induction eventsFrom inComment linesRead source with
  | case1 => exact absurd hmem List.not_mem_nil
  | case2 inComment linesRead cause rest ih =>
    rcases List.mem_cons.1 hmem with rfl | hrest
    · exact rfl
    · exact ih hrest
  | case3 inComment linesRead characters rest fault hscan ih =>
    rcases List.mem_cons.1 hmem with rfl | hrest
    · exact fault.isEndOfInput_error _
    · exact (ih hrest).mono (Nat.le_succ _)
  | case4 inComment linesRead characters rest scan hscan ih =>
    rcases List.mem_append.1 hmem with hline | hrest
    · obtain ⟨text, -, rfl⟩ := List.mem_map.1 hline
      exact (Lexeme.follows_event _).mono (Nat.le_succ _)
    · exact (ih hrest).mono (Nat.le_succ _)

namespace Lexer

/-! ## What a lexer has still to tell -/

/-- What a lexer has still to tell: its queue, and then the lines that it has not read. -/
def pending (lexer : Lexer) : List Event :=
  lexer.queue.map Lexeme.event ++ eventsFrom lexer.inComment lexer.linesRead lexer.lines

/-- The lexemes that wait are of the last line read, and no token is behind it. -/
structure Aligned (lexer : Lexer) : Prop where
  queue : ∀ lexeme ∈ lexer.queue, lexeme.line = lexer.linesRead
  line : lexer.line ≤ lexer.linesRead

/-- A lexer that has read nothing. -/
theorem aligned_start (source : Source) : Aligned { lines := source } where
  queue := fun _ hmem => absurd hmem List.not_mem_nil
  line := Nat.le_refl 0

theorem aligned_ofBytes (bytes : List UInt8) : (ofBytes bytes).Aligned := aligned_start _

/-- What is pending does not lie before the last line read. -/
theorem Aligned.follows {lexer : Lexer} (haligned : lexer.Aligned) {event : Event}
    (hmem : event ∈ lexer.pending) : event.Follows lexer.linesRead := by
  rcases List.mem_append.1 hmem with hqueue | hlines
  · obtain ⟨lexeme, hwaits, rfl⟩ := List.mem_map.1 hqueue
    rw [← haligned.queue lexeme hwaits]
    exact lexeme.follows_event
  · exact follows_of_mem_eventsFrom hlines

/-- A lexer tells some events on its way to another state: they come off the front of what
was pending, the last token of them becomes the current one, and lines are read in order. -/
structure Tells (lexer : Lexer) (told : List Event) (reached : Lexer) : Prop where
  pending : lexer.pending = told ++ reached.pending
  current : reached.current = ((lastToken? told).map Prod.fst).or lexer.current
  line : reached.line = ((lastToken? told).map Prod.snd).getD lexer.line
  read : ∃ read, lexer.lines = read ++ reached.lines ∧
    reached.linesRead = lexer.linesRead + numberedLines read

theorem lastToken?_append (first second : List Event) :
    lastToken? (first ++ second) = (lastToken? second).or (lastToken? first) := by
  rw [lastToken?, List.filterMap_append, List.getLast?_append]
  rfl

namespace Tells

variable {lexer middle reached : Lexer} {told more : List Event}

theorem refl (lexer : Lexer) : Tells lexer [] lexer where
  pending := rfl
  current := rfl
  line := rfl
  read := ⟨[], rfl, rfl⟩

theorem trans (h : Tells lexer told middle) (h' : Tells middle more reached) :
    Tells lexer (told ++ more) reached where
  pending := by rw [h.pending, h'.pending, List.append_assoc]
  current := by
    rw [h'.current, h.current, lastToken?_append]
    cases lastToken? more <;> rfl
  line := by
    rw [h'.line, h.line, lastToken?_append]
    cases lastToken? more <;> rfl
  read := by
    obtain ⟨first, hfirst, hcount⟩ := h.read
    obtain ⟨second, hsecond, hcount'⟩ := h'.read
    refine ⟨first ++ second, ?_, ?_⟩
    · rw [hfirst, hsecond, List.append_assoc]
    · rw [hcount', hcount, Nat.add_assoc, numberedLines, numberedLines, numberedLines,
        List.countP_append]

theorem linesRead_le (h : Tells lexer told reached) : lexer.linesRead ≤ reached.linesRead := by
  obtain ⟨read, -, hcount⟩ := h.read
  rw [hcount]
  exact Nat.le_add_right _ _

/-- The line number never goes back. -/
theorem lineNumber_le (h : Tells lexer told reached) (haligned : lexer.Aligned) :
    lexer.lineNumber ≤ reached.lineNumber := by
  have hle : lexer.lineNumber ≤ lexer.linesRead := by
    unfold lineNumber
    split
    · exact haligned.line
    · exact Nat.le_refl _
  cases hlast : lastToken? told with
  | none =>
    have hcurrent : reached.current = lexer.current := by simpa [hlast] using h.current
    have hline : reached.line = lexer.line := by simpa [hlast] using h.line
    rw [lineNumber, lineNumber, hcurrent, hline]
    split
    · exact Nat.le_refl _
    · exact h.linesRead_le
  | some last =>
    -- the last token told was pending, so it does not lie before the lines read
    have hcurrent : reached.current = some last.1 := by simpa [hlast] using h.current
    have hline : reached.line = last.2 := by simpa [hlast] using h.line
    have hnumber : reached.lineNumber = last.2 := by simp [lineNumber, hcurrent, hline]
    obtain ⟨event, hmem, htoken⟩ := List.mem_filterMap.1 (List.mem_of_getLast? hlast)
    have hfollows : event.Follows lexer.linesRead := by
      apply haligned.follows
      rw [h.pending]
      exact List.mem_append_left _ hmem
    cases event with
    | error error => cases htoken
    | token token line =>
      cases htoken
      rw [hnumber]
      exact Nat.le_trans hle hfollows

end Tells

/-! ## Reading lines -/

/-- The error that a pull ended with, as an event. -/
def fault {α : Type} : EStateM.Result Error Lexer α → List Event
  | .ok _ _ => []
  | .error error _ => [.error error]

/-- The three ways in which reading a line can end. -/
theorem readLine_cases (lexer : Lexer) (line : Line) (rest : Source) :
    (∃ cause, line = .unreadable cause ∧
      lexer.readLine line rest = .error (.io cause) { lexer with lines := rest }) ∨
    (∃ characters faulty, line = .text characters ∧
      Lexeme.scanLine lexer.inComment characters = .error faulty ∧
      lexer.readLine line rest = .error (faulty.error (lexer.linesRead + 1))
        { lexer with lines := rest, linesRead := lexer.linesRead + 1, inComment := false }) ∨
    (∃ characters scan, line = .text characters ∧
      Lexeme.scanLine lexer.inComment characters = .ok scan ∧
      lexer.readLine line rest = .ok () { lexer with
        lines := rest
        linesRead := lexer.linesRead + 1
        inComment := scan.inComment
        queue := lexer.queue ++ scan.lexemes.map fun text => ⟨lexer.linesRead + 1, text⟩ }) := by
  cases line with
  | unreadable cause => exact .inl ⟨cause, rfl, rfl⟩
  | text characters =>
    right
    cases hscan : Lexeme.scanLine lexer.inComment characters with
    | error faulty =>
      left
      refine ⟨characters, faulty, rfl, hscan, ?_⟩
      cases faulty <;> simp [readLine, hscan, Lexeme.Fault.error]
    | ok scan => exact .inr ⟨characters, scan, rfl, hscan, by simp [readLine, hscan]⟩

/-- Reading a line with nothing in the queue tells its fault, if it has one. -/
theorem tells_readLine {lexer : Lexer} {line : Line} {rest : Source}
    (hlines : lexer.lines = line :: rest) (hqueue : lexer.queue = []) :
    Tells lexer (fault (lexer.readLine line rest)) (after (lexer.readLine line rest)) := by
  rcases readLine_cases lexer line rest with
    ⟨cause, rfl, hread⟩ | ⟨characters, faulty, rfl, hscan, hread⟩ |
      ⟨characters, scan, rfl, hscan, hread⟩
  · rw [hread]
    exact ⟨by simp [pending, hlines, hqueue, fault, after, eventsFrom], rfl, rfl,
      [.unreadable cause], hlines, rfl⟩
  · rw [hread]
    exact ⟨by simp [pending, hlines, hqueue, fault, after, eventsFrom, hscan], rfl, rfl,
      [.text characters], hlines, rfl⟩
  · rw [hread]
    refine ⟨?_, rfl, rfl, [.text characters], hlines, rfl⟩
    simp [pending, hlines, hqueue, fault, after, eventsFrom, hscan, Function.comp_def]

theorem aligned_readLine {lexer : Lexer} (line : Line) (rest : Source) (haligned : lexer.Aligned)
    (hqueue : lexer.queue = []) : (after (lexer.readLine line rest)).Aligned := by
  have hline := haligned.line
  rcases readLine_cases lexer line rest with
    ⟨cause, rfl, hread⟩ | ⟨characters, faulty, rfl, hscan, hread⟩ |
      ⟨characters, scan, rfl, hscan, hread⟩
  · rw [hread]
    exact ⟨haligned.queue, hline⟩
  · rw [hread]
    exact ⟨by simp [after, hqueue], Nat.le_succ_of_le hline⟩
  · rw [hread]
    exact ⟨by simp [after, hqueue], Nat.le_succ_of_le hline⟩

/-- Filling the queue reads lines up to the first fault. -/
theorem tells_fill {lines : Source} {lexer : Lexer} (hlines : lexer.lines = lines)
    (haligned : lexer.Aligned) :
    Tells lexer (fault (fill lines lexer)) (after (fill lines lexer)) ∧
      (after (fill lines lexer)).Aligned := by
  induction lines generalizing lexer with
  | nil => exact ⟨.refl lexer, haligned⟩
  | cons line rest ih =>
    rw [fill]
    -- lines are read only while nothing waits, so what a line tells comes behind what was told
    by_cases hempty : lexer.queue.isEmpty
    · have hqueue := List.isEmpty_iff.1 hempty
      have htells := tells_readLine hlines hqueue
      have haligned' := aligned_readLine line rest haligned hqueue
      have hleft := after_readLine_lines lexer line rest
      rw [if_pos hempty]
      cases hread : lexer.readLine line rest with
      | error error reached =>
        rw [hread] at htells haligned'
        exact ⟨htells, haligned'⟩
      | ok _ reached =>
        rw [hread] at htells haligned' hleft
        obtain ⟨hmore, hfilled⟩ := @ih reached hleft haligned'
        exact ⟨htells.trans hmore, hfilled⟩
    · rw [if_neg hempty]
      exact ⟨.refl lexer, haligned⟩

/-- Filling says that there is nothing more only at the end of the lines, with nothing in the
queue. -/
theorem pending_of_fill {lines : Source} {lexer reached : Lexer} (hlines : lexer.lines = lines)
    (hfill : fill lines lexer = .ok false reached) : reached.pending = [] := by
  induction lines generalizing lexer with
  | nil =>
    simp only [fill, EStateM.Result.ok.injEq, Bool.not_eq_false'] at hfill
    obtain ⟨hqueue, rfl⟩ := hfill
    rw [pending, List.isEmpty_iff.1 hqueue, hlines]
    rfl
  | cons line rest ih =>
    rw [fill] at hfill
    split at hfill
    · have hleft := after_readLine_lines lexer line rest
      cases hread : lexer.readLine line rest with
      | error error read =>
        rw [hread] at hfill
        cases hfill
      | ok _ read =>
        rw [hread] at hfill hleft
        exact ih hleft hfill
    · cases hfill

/-! ## Pulling -/

/-- The outcomes of looking ahead: an error is told; otherwise a lexeme waits, or nothing is
pending any more. -/
theorem hasNext_cases {lexer : Lexer} (haligned : lexer.Aligned) :
    (∃ error reached, hasNext lexer = .error error reached ∧
      Tells lexer [.error error] reached ∧ reached.Aligned) ∨
    (∃ reached lexeme queue, hasNext lexer = .ok true reached ∧ reached.queue = lexeme :: queue ∧
      Tells lexer [] reached ∧ reached.Aligned) ∨
    (∃ reached, hasNext lexer = .ok false reached ∧ reached.queue = [] ∧ reached.pending = [] ∧
      Tells lexer [] reached ∧ reached.Aligned) := by
  obtain ⟨htells, hreached⟩ := tells_fill rfl haligned
  cases hfill : fill lexer.lines lexer with
  | error error reached =>
    rw [hfill] at htells hreached
    exact .inl ⟨error, reached, hfill, htells, hreached⟩
  | ok waiting reached =>
    rw [hfill] at htells hreached
    right
    cases waiting with
    | true =>
      obtain ⟨lexeme, queue, hqueue⟩ := List.exists_cons_of_ne_nil (queue_of_fill hfill)
      exact .inl ⟨reached, lexeme, queue, hfill, hqueue, htells, hreached⟩
    | false =>
      -- at the end of the source nothing is pending, neither in the queue nor in the lines
      have hpending := pending_of_fill rfl hfill
      have hqueue : reached.queue = [] :=
        List.map_eq_nil_iff.1 (List.append_eq_nil_iff.1 hpending).1
      exact .inr ⟨reached, hfill, hqueue, hpending, htells, hreached⟩

/-- The state behind the first lexeme of the queue. -/
theorem tells_take {lexer : Lexer} {lexeme : Lexeme} {queue : List Lexeme}
    (hqueue : lexer.queue = lexeme :: queue) (haligned : lexer.Aligned) :
    Tells lexer [lexeme.event] (after (take lexer)) ∧ (after (take lexer)).Aligned := by
  have hline : lexeme.line = lexer.linesRead := by
    apply haligned.queue
    rw [hqueue]
    exact List.mem_cons_self
  have hwaiting : ∀ waiting ∈ queue, waiting.line = lexer.linesRead := by
    intro waiting hmem
    apply haligned.queue
    rw [hqueue]
    exact List.mem_cons_of_mem _ hmem
  have hpending : lexer.pending = lexeme.event ::
      (queue.map Lexeme.event ++ eventsFrom lexer.inComment lexer.linesRead lexer.lines) := by
    rw [pending, hqueue]
    rfl
  -- a lexeme is taken off the queue whether it is a token or not
  cases hclassify : lexeme.classify with
  | ok token =>
    have htake : take lexer =
        .ok token { lexer with queue, line := lexeme.line, current := some token } := by
      simp [take, hqueue, hclassify]
    have hevent : lexeme.event = .token token lexeme.line := by simp [Lexeme.event, hclassify]
    rw [htake, hevent]
    rw [hevent] at hpending
    exact ⟨⟨hpending, rfl, rfl, [], rfl, rfl⟩, hwaiting, Nat.le_of_eq hline⟩
  | error error =>
    have htake : take lexer = .error error { lexer with queue } := by
      simp [take, hqueue, hclassify]
    have hevent : lexeme.event = .error error := by simp [Lexeme.event, hclassify]
    rw [htake, hevent]
    rw [hevent] at hpending
    exact ⟨⟨hpending, rfl, rfl, [], rfl, rfl⟩, hwaiting, haligned.line⟩

/-! ## Calls -/

/-- A call on a lexer. -/
inductive Call where
  | hasNext
  | advance
  | next
  | current
  | line
  deriving DecidableEq, Repr

/-- What a call returns. -/
inductive Reply where
  | hasNext (result : Except Error Bool)
  | advance (result : Except Error Token)
  | next (result : Except Error (Option Token))
  | current (token : Option Token)
  | line (number : Nat)

/-- What a pull returns, without the state that it ends in. -/
def outcome {α : Type} : EStateM.Result Error Lexer α → Except Error α
  | .ok value _ => .ok value
  | .error error _ => .error error

/-- What a lexer returns when it is called. -/
def reply (lexer : Lexer) : Call → Reply
  | .hasNext => .hasNext (outcome (hasNext lexer))
  | .advance => .advance (outcome (advance lexer))
  | .next => .next (outcome (next lexer))
  | .current => .current lexer.current
  | .line => .line lexer.lineNumber

/-- The lexer behind a call. -/
def called (lexer : Lexer) : Call → Lexer
  | .hasNext => after (hasNext lexer)
  | .advance => after (advance lexer)
  | .next => after (next lexer)
  | .current => lexer
  | .line => lexer

/-- What a lexer returns to one call after another. -/
def replies : Lexer → List Call → List Reply
  | _, [] => []
  | lexer, call :: calls => lexer.reply call :: replies (lexer.called call) calls

/-- The lexer behind one call after another. -/
def calledAll (lexer : Lexer) (calls : List Call) : Lexer := calls.foldl called lexer

namespace Reply

/-- The token or the error that a reply delivers, if any. The end of the input is none. -/
def delivered : Reply → List (Except Error Token)
  | hasNext (.ok _) => []
  | hasNext (.error error) => [.error error]
  | advance (.ok token) => [.ok token]
  | advance (.error error) => if error.isEndOfInput then [] else [.error error]
  | next (.ok none) => []
  | next (.ok (some token)) => [.ok token]
  | next (.error error) => [.error error]
  | current _ => []
  | line _ => []

/-- Whether a reply says that the input is at its end. -/
def reportsEnd : Reply → Bool
  | hasNext (.ok more) => !more
  | advance (.error error) => error.isEndOfInput
  | next (.ok token) => token.isNone
  | _ => false

end Reply

/-- Whether a call looks for the next token. -/
def Call.pulls : Call → Bool
  | .hasNext => true
  | .advance => true
  | .next => true
  | .current => false
  | .line => false

/-- What a call does with some events: it delivers them, takes them off what is pending, and
reports the end exactly when it looks for a token and nothing is pending. -/
structure Answers (lexer : Lexer) (call : Call) (told : List Event) : Prop where
  tells : Tells lexer told (lexer.called call)
  aligned : (lexer.called call).Aligned
  delivered : (lexer.reply call).delivered = told.map Event.result
  ends : (lexer.reply call).reportsEnd = true ↔ call.pulls = true ∧ lexer.pending = []

theorem outcome_take {lexer : Lexer} {lexeme : Lexeme} {queue : List Lexeme}
    (hqueue : lexer.queue = lexeme :: queue) : outcome (take lexer) = lexeme.event.result := by
  cases hclassify : lexeme.classify <;>
    simp [take, hqueue, Lexeme.event, hclassify, outcome, Event.result]

/-- Looking ahead tells an error or nothing. -/
theorem answers_hasNext {lexer : Lexer} (haligned : lexer.Aligned) :
    ∃ told, lexer.Answers .hasNext told := by
  rcases hasNext_cases haligned with
    ⟨error, reached, hpull, htells, hreached⟩ |
      ⟨reached, lexeme, queue, hpull, hqueue, htells, hreached⟩ |
        ⟨reached, hpull, hqueue, hpending, htells, hreached⟩
  · have hreply : lexer.reply .hasNext = .hasNext (.error error) := by rw [reply, hpull, outcome]
    have hcalled : lexer.called .hasNext = reached := by rw [called, hpull, after]
    refine ⟨[.error error], by rwa [hcalled], by rwa [hcalled], by rw [hreply]; rfl, ?_⟩
    rw [hreply, htells.pending]
    simp [Reply.reportsEnd]
  · have hreply : lexer.reply .hasNext = .hasNext (.ok true) := by rw [reply, hpull, outcome]
    have hcalled : lexer.called .hasNext = reached := by rw [called, hpull, after]
    refine ⟨[], by rwa [hcalled], by rwa [hcalled], by rw [hreply]; rfl, ?_⟩
    rw [hreply, htells.pending, pending, hqueue]
    simp [Reply.reportsEnd]
  · have hreply : lexer.reply .hasNext = .hasNext (.ok false) := by rw [reply, hpull, outcome]
    have hcalled : lexer.called .hasNext = reached := by rw [called, hpull, after]
    refine ⟨[], by rwa [hcalled], by rwa [hcalled], by rw [hreply]; rfl, ?_⟩
    rw [hreply, htells.pending, hpending]
    simp [Reply.reportsEnd, Call.pulls]

/-- Both ways to take a token tell the first event that is pending; they differ only in how
they report the end. -/
theorem pull_cases {lexer : Lexer} (haligned : lexer.Aligned) :
    lexer.called .next = lexer.called .advance ∧ (lexer.called .advance).Aligned ∧
    ((∃ event, lexer.reply .advance = .advance event.result ∧
      lexer.reply .next = .next (event.result.map some) ∧
      Tells lexer [event] (lexer.called .advance)) ∨
    (∃ line, lexer.reply .advance =
        .advance (.error (.expected line "additional tokens" "end of input")) ∧
      lexer.reply .next = .next (.ok none) ∧ lexer.pending = [] ∧
      Tells lexer [] (lexer.called .advance))) := by
  rcases hasNext_cases haligned with
    ⟨error, reached, hpull, htells, hreached⟩ |
      ⟨reached, lexeme, queue, hpull, hqueue, htells, hreached⟩ |
        ⟨reached, hpull, hqueue, hpending, htells, hreached⟩
  -- a line that cannot be read, a lexeme that waits, and the end of the source
  · have hadvance : advance lexer = .error error reached := by
      simp [advance, bind, EStateM.bind, hpull]
    have hnext : next lexer = .error error reached := by simp [next, bind, EStateM.bind, hpull]
    rw [reply, reply, called, called, hadvance, hnext]
    exact ⟨rfl, hreached, .inl ⟨.error error, rfl, rfl, htells⟩⟩
  · obtain ⟨htaken, haligned'⟩ := tells_take hqueue hreached
    have houtcome := outcome_take hqueue
    have hadvance : advance lexer = take reached := by simp [advance, bind, EStateM.bind, hpull]
    have hnext : next lexer = (take >>= fun token => pure (some token)) reached := by
      simp [next, bind, EStateM.bind, hpull]
    rw [reply, reply, called, called, hadvance, hnext]
    refine ⟨?_, haligned', .inl ⟨lexeme.event, by rw [houtcome], ?_, htells.trans htaken⟩⟩
    · simp only [bind, EStateM.bind]
      cases take reached <;> rfl
    · rw [← houtcome]
      simp only [bind, EStateM.bind]
      cases take reached <;> rfl
  · have htake : take reached =
        .error (.expected reached.linesRead "additional tokens" "end of input") reached := by
      simp [take, hqueue]
    have hadvance : advance lexer = take reached := by simp [advance, bind, EStateM.bind, hpull]
    have hnext : next lexer = .ok none reached := by
      simp [next, bind, EStateM.bind, hpull, pure, EStateM.pure]
    have hnone : lexer.pending = [] := by rw [htells.pending, hpending, List.append_nil]
    rw [reply, reply, called, called, hadvance, htake, hnext]
    exact ⟨rfl, hreached, .inr ⟨reached.linesRead, rfl, rfl, hnone, htells⟩⟩

/-- An event that is pending is no end of the input. -/
theorem Tells.isEndOfInput_eq_false {lexer reached : Lexer} {event : Event} {error : Error}
    (h : Tells lexer [event] reached) (haligned : lexer.Aligned)
    (herror : event.result = .error error) : error.isEndOfInput = false := by
  have hfollows : event.Follows lexer.linesRead := by
    apply haligned.follows
    rw [h.pending]
    exact List.mem_append_left _ (List.mem_singleton_self _)
  cases event with
  | token found line => cases herror
  | error met =>
    cases herror
    exact hfollows

/-- Taking a token tells the first event that is pending. -/
theorem answers_advance {lexer : Lexer} (haligned : lexer.Aligned) :
    lexer.Answers .advance (lexer.pending.take 1) := by
  obtain ⟨-, haligned', ⟨event, hreply, -, htells⟩ | ⟨line, hreply, -, hpending, htells⟩⟩ :=
    pull_cases haligned
  · have hpending := htells.pending
    rw [hpending]
    refine ⟨htells, haligned', ?_, ?_⟩
    · rw [hreply]
      cases hresult : event.result with
      | ok token => simp [Reply.delivered, hresult]
      | error error =>
        simp [Reply.delivered, htells.isEndOfInput_eq_false haligned hresult, hresult]
    · rw [hreply, hpending]
      cases hresult : event.result with
      | ok token => simp [Reply.reportsEnd]
      | error error =>
        simp [Reply.reportsEnd, htells.isEndOfInput_eq_false haligned hresult]
  · rw [hpending]
    refine ⟨htells, haligned', by rw [hreply]; rfl, ?_⟩
    rw [hreply]
    simp [Reply.reportsEnd, Error.isEndOfInput, Call.pulls, hpending]

/-- Asking for the next token tells the first event that is pending. -/
theorem answers_next {lexer : Lexer} (haligned : lexer.Aligned) :
    lexer.Answers .next (lexer.pending.take 1) := by
  obtain ⟨hcalled, haligned', ⟨event, -, hreply, htells⟩ | ⟨line, -, hreply, hpending, htells⟩⟩ :=
    pull_cases haligned
  · have hpending := htells.pending
    rw [hpending]
    refine ⟨by rwa [hcalled], by rwa [hcalled], ?_, ?_⟩
    · rw [hreply]
      cases hresult : event.result <;> simp [Except.map, Reply.delivered, hresult]
    · rw [hreply, hpending]
      cases hresult : event.result <;> simp [Except.map, Reply.reportsEnd]
  · rw [hpending]
    refine ⟨by rwa [hcalled], by rwa [hcalled], by rw [hreply]; rfl, ?_⟩
    rw [hreply]
    simp [Reply.reportsEnd, Call.pulls, hpending]

/-- Every call takes what it delivers off what is pending. -/
theorem exists_answers {lexer : Lexer} (haligned : lexer.Aligned) (call : Call) :
    ∃ told, lexer.Answers call told := by
  cases call with
  | hasNext => exact answers_hasNext haligned
  | advance => exact ⟨_, answers_advance haligned⟩
  | next => exact ⟨_, answers_next haligned⟩
  | current => exact ⟨[], .refl lexer, haligned, rfl, by simp [reply, Reply.reportsEnd, Call.pulls]⟩
  | line => exact ⟨[], .refl lexer, haligned, rfl, by simp [reply, Reply.reportsEnd, Call.pulls]⟩

/-! ## Sequences of calls -/

/-- One call after another delivers what comes off the front of what was pending. -/
theorem tells_run {lexer : Lexer} (haligned : lexer.Aligned) (calls : List Call) :
    ∃ told, (lexer.replies calls).flatMap Reply.delivered = told.map Event.result ∧
      Tells lexer told (lexer.calledAll calls) ∧ (lexer.calledAll calls).Aligned := by
  induction calls generalizing lexer with
  | nil => exact ⟨[], rfl, .refl lexer, haligned⟩
  | cons call calls ih =>
    obtain ⟨told, hanswers⟩ := exists_answers haligned call
    obtain ⟨more, hdelivered, htells, hreached⟩ := ih hanswers.aligned
    refine ⟨told ++ more, ?_, hanswers.tells.trans htells, hreached⟩
    rw [replies, List.flatMap_cons, hanswers.delivered, hdelivered, List.map_append]

/-- How a lexer answers that has told some events of a source, has others left and has read
some lines. -/
structure StandsBetween (lexer : Lexer) (told rest : List Event) (read : Source) : Prop where
  /-- The current token is the last one told. -/
  current : lexer.reply .current = .current ((lastToken? told).map Prod.fst)
  /-- The line is that of the current token, or the number of lines read. -/
  line : lexer.reply .line =
    .line (((lastToken? told).map Prod.snd).getD (numberedLines read))
  /-- The end is reported exactly when everything was told. -/
  ends : ∀ call : Call, call.pulls = true → ((lexer.reply call).reportsEnd = true ↔ rest = [])
  /-- The next event comes next, whichever way a token is taken. -/
  advance : (lexer.reply .advance).delivered = (rest.take 1).map Event.result
  next : (lexer.reply .next).delivered = (rest.take 1).map Event.result
  /-- No call makes the line number smaller. -/
  in_order : ∀ call : Call, lexer.lineNumber ≤ (lexer.called call).lineNumber

theorem Aligned.standsBetween {lexer : Lexer} (haligned : lexer.Aligned) {source read : Source}
    {told : List Event} (htells : Tells { lines := source } told lexer)
    (hread : lexer.linesRead = numberedLines read) :
    lexer.StandsBetween told lexer.pending read where
  current := by rw [reply, htells.current, Option.or_none]
  line := by
    rw [reply, lineNumber, htells.current, htells.line, hread]
    cases lastToken? told <;> rfl
  ends := by
    intro call hpulls
    obtain ⟨_, hanswers⟩ := exists_answers haligned call
    rw [hanswers.ends, hpulls]
    simp
  advance := (answers_advance haligned).delivered
  next := (answers_next haligned).delivered
  in_order := by
    intro call
    obtain ⟨_, hanswers⟩ := exists_answers haligned call
    exact hanswers.tells.lineNumber_le haligned

/-- **Nothing is lost, nothing comes twice.** Whatever a lexer over some bytes is asked, one
call after another, what it delivers is a beginning of the events of the source, and every
answer fits the place between those told and those left. -/
theorem calls_deliver_the_events (bytes : List UInt8) (calls : List Call) :
    ∃ told rest read, events (Source.ofBytes bytes) = told ++ rest ∧
      ((ofBytes bytes).replies calls).flatMap Reply.delivered = told.map Event.result ∧
      Source.ofBytes bytes = read ++ ((ofBytes bytes).calledAll calls).lines ∧
      ((ofBytes bytes).calledAll calls).StandsBetween told rest read := by
  obtain ⟨told, hdelivered, htells, hreached⟩ := tells_run (aligned_ofBytes bytes) calls
  obtain ⟨read, hlines, hcount⟩ := htells.read
  have hread : ((ofBytes bytes).calledAll calls).linesRead = numberedLines read := by
    rw [hcount]
    exact Nat.zero_add _
  exact ⟨told, _, read, htells.pending, hdelivered, hlines, hreached.standsBetween htells hread⟩

-- looking ahead twice tells the fault of the second line once
example :
    (replies { lines := [.text "let /*".toList, .text "*/ x #".toList, .text "9x".toList] }
      [.next, .hasNext, .line, .hasNext, .current, .advance, .hasNext]).flatMap Reply.delivered =
    [.ok (.keyword .letKw), .error (.invalidCharacter 2 '#'), .error (.invalidToken 3 "9x")] := rfl

end Lexer

end Jack
