/-
The tokens of a source as one list.

A lexer is pulled token by token; what a whole source means is the list of
everything it yields. `Yields lexer tokens` says that pulling gives exactly these
tokens and then the end, without an error on the way. It is the same as draining
the lexer and finding nothing but these tokens (`yields_iff_results`), and it is
the form in which a rule of the grammar can take a prefix and leave the rest.

The second half bounds the length of the list by `Lexer.budget`, the number that
the compiler computes before it starts: every lexeme of a line has a character
of the line to itself.
-/
import Jack.Lexer.Items

set_option autoImplicit false

namespace Jack.Lexer

/-! ## Pulling to the end -/

/-- Pulling gives exactly these tokens, without an error, and then the end. -/
inductive Yields : Lexer → List Token → Prop where
  | done {lexer reached : Lexer} (hpull : next lexer = .ok none reached) : Yields lexer []
  | more {lexer reached : Lexer} {token : Token} {rest : List Token}
      (hpull : next lexer = .ok (some token) reached) (hrest : Yields reached rest) :
      Yields lexer (token :: rest)

/-- The tokens of at most a number of pulls, if these come to the end without an error. -/
def pulled : Nat → Lexer → Option (List Token)
  | 0, _ => none
  | pulls + 1, lexer =>
    match next lexer with
    | .ok none _ => some []
    | .ok (some token) reached => (pulled pulls reached).map (token :: ·)
    | .error _ _ => none

theorem yields_of_pulled {pulls : Nat} {lexer : Lexer} {tokens : List Token}
    (h : pulled pulls lexer = some tokens) : Yields lexer tokens := by
  induction pulls generalizing lexer tokens with
  | zero => cases h
  | succ pulls ih =>
    unfold pulled at h
    split at h
    · rename_i hpull
      cases h
      exact .done hpull
    · rename_i hpull
      obtain ⟨rest, hrest, rfl⟩ := Option.map_eq_some_iff.1 h
      exact .more hpull (ih hrest)
    · cases h

/-- What a lexer yields until its end: tokens, and the errors between them. -/
def results (lexer : Lexer) : List (Except Error Token) := (drain lexer).1.toList.map Item.result

/-- A pull that gives a token leaves less to pull. -/
theorem behind_of_token {lexer reached : Lexer} {token : Token}
    (hpull : next lexer = .ok (some token) reached) : Behind reached lexer := by
  rcases next_behind lexer with ⟨_, hend⟩ | hbehind
  · rw [hpull] at hend
    cases hend
  · rwa [hpull] at hbehind

/-- A pull that meets an error leaves less to pull. -/
theorem behind_of_error {lexer reached : Lexer} {error : Error}
    (hpull : next lexer = .error error reached) : Behind reached lexer := by
  rcases next_behind lexer with ⟨_, hend⟩ | hbehind
  · rw [hpull] at hend
    cases hend
  · rwa [hpull] at hbehind

/-- What was collected before stays in front. -/
theorem drainFrom_toList (items : Array Item) (lexer : Lexer) :
    (drainFrom items lexer).1.toList = items.toList ++ (drainFrom #[] lexer).1.toList := by
  rw [drainFrom.eq_def items, drainFrom.eq_def #[]]
  split
  · simp
  · next token reached hpull =>
    rw [drainFrom_toList (items.push _) reached, drainFrom_toList (#[].push _) reached]
    simp
  · next error reached hpull =>
    rw [drainFrom_toList (items.push _) reached, drainFrom_toList (#[].push _) reached]
    simp
termination_by (lexer.lines.length, lexer.queue.length)
decreasing_by
  · exact behind_of_token ‹_›
  · exact behind_of_token ‹_›
  · exact behind_of_error ‹_›
  · exact behind_of_error ‹_›

/-- At the end there is nothing to collect. -/
theorem results_of_end {lexer reached : Lexer} (hpull : next lexer = .ok none reached) :
    results lexer = [] := by
  rw [results, drain, drainFrom]
  split <;> simp_all

/-- A token that is pulled comes first. -/
theorem results_of_token {lexer reached : Lexer} {token : Token}
    (hpull : next lexer = .ok (some token) reached) :
    results lexer = .ok token :: results reached := by
  rw [results, drain, drainFrom]
  split <;> simp_all [results, drain, drainFrom_toList #[_]]

/-- An error that is met comes first. -/
theorem results_of_error {lexer reached : Lexer} {error : Error}
    (hpull : next lexer = .error error reached) :
    results lexer = .error error :: results reached := by
  rw [results, drain, drainFrom]
  split <;> simp_all [results, drain, drainFrom_toList #[_]]

/-- **Streams and drains.** A lexer yields tokens exactly when draining it gives these
tokens and no error. -/
theorem yields_iff_results {lexer : Lexer} {tokens : List Token} :
    Yields lexer tokens ↔ results lexer = tokens.map Except.ok := by
  constructor
  · intro hyields
    induction hyields with
    | done hpull => exact results_of_end hpull
    | more hpull _ ih => rw [results_of_token hpull, ih, List.map_cons]
  · intro hresults
    -- the first pull tells what the first result is, and the rest is drained from there
    induction tokens generalizing lexer with
    | nil =>
      cases hpull : next lexer with
      | error error reached => simp [results_of_error hpull] at hresults
      | ok pulled reached =>
        cases pulled with
        | none => exact .done hpull
        | some token => simp [results_of_token hpull] at hresults
    | cons token rest ih =>
      cases hpull : next lexer with
      | error error reached => simp [results_of_error hpull] at hresults
      | ok pulled reached =>
        cases pulled with
        | none => simp [results_of_end hpull] at hresults
        | some first =>
          simp only [results_of_token hpull, List.map_cons, List.cons.injEq,
            Except.ok.injEq] at hresults
          obtain ⟨rfl, hrest⟩ := hresults
          exact .more hpull (ih hrest)

/-! ## The end -/

/-- Nothing is left to read. -/
structure Spent (lexer : Lexer) : Prop where
  lines : lexer.lines = []
  queue : lexer.queue = []

theorem spent_of_fill {lines : Source} {lexer reached : Lexer} (hlines : lexer.lines = lines)
    (hfill : fill lines lexer = .ok false reached) : reached.Spent := by
  induction lines generalizing lexer with
  | nil =>
    simp only [fill, EStateM.Result.ok.injEq] at hfill
    obtain ⟨hempty, rfl⟩ := hfill
    exact ⟨hlines, by simpa using hempty⟩
  | cons line rest ih =>
    rw [fill] at hfill
    split at hfill
    · have hleft := after_readLine_lines lexer line rest
      cases hread : lexer.readLine line rest with
      | error error read =>
        rw [hread] at hfill
        cases hfill
      | ok _ read =>
        rw [hread] at hfill hleft
        exact ih hleft hfill
    · cases hfill

/-- A pull reports the end when everything was read. -/
theorem spent_of_next {lexer reached : Lexer} (hnext : next lexer = .ok none reached) :
    reached.Spent := by
  simp only [next, hasNext, bind, EStateM.bind] at hnext
  cases hfill : fill lexer.lines lexer with
  | error error filled => simp [hfill] at hnext
  | ok more filled =>
    cases more with
    | false =>
      rw [hfill] at hnext
      cases hnext
      exact spent_of_fill rfl hfill
    | true =>
      simp only [hfill, if_true, EStateM.bind] at hnext
      cases htake : take filled <;> rw [htake] at hnext <;> cases hnext

/-- From then on it does so again and again. -/
theorem Spent.next_eq {lexer : Lexer} (h : lexer.Spent) : next lexer = .ok none lexer := by
  have hfill : fill lexer.lines lexer = .ok false lexer := by
    rw [h.lines, fill, h.queue]
    rfl
  simp only [next, hasNext, bind, EStateM.bind, hfill]
  rfl

/-! ## How many tokens can come -/

end Jack.Lexer

namespace Jack.Lexeme

/-- How many lexemes a scan has begun and not yet added to those found. -/
def Mode.pending : Mode → Nat
  | .code [] => 0
  | .code (_ :: _) => 1
  | .string _ => 0
  | .comment => 0

theorem length_flush (word : List Char) (found : List (List Char)) :
    (flush word found).length = found.length + (Mode.code word).pending := by
  cases word <;> simp [flush, Mode.pending]

/-- Every lexeme that a scan adds has a character of the line to itself. -/
theorem length_scanFrom {mode : Mode} {found : List (List Char)} {line : List Char} {scan : Scan}
    (hscan : scanFrom mode found line = .ok scan) :
    scan.lexemes.length ≤ found.length + mode.pending + line.length := by
  -- at most one lexeme is begun and not yet found: the word of code mode, which
  -- used up a character of its own
  have hword : ∀ word, (Mode.code word).pending ≤ 1 := by
    intro word
    cases word <;> simp [Mode.pending]
  fun_induction scanFrom mode found line with
  | case1 found =>
    cases hscan
    simp
  | case4 content found => cases hscan
  | case7 word found =>
    cases hscan
    simp [length_flush]
  | case8 word found tail =>
    cases hscan
    simp only [List.length_reverse, length_flush, List.length_cons]
    omega
  | case14 word found c rest => cases hscan
  | case13 word found c rest _ _ _ _ _ _ ih =>
    have hrest := ih hscan
    have hbegun := hword (c :: word)
    simp only [List.length_cons] at hrest ⊢
    omega
  | _ =>
    rename_i ih
    have hrest := ih hscan
    simp only [Mode.pending, length_flush, List.length_cons] at hrest ⊢
    omega

/-- A line has at most as many lexemes as characters. -/
theorem length_scanLine {inComment : Bool} {line : List Char} {scan : Scan}
    (hscan : scanLine inComment line = .ok scan) : scan.lexemes.length ≤ line.length := by
  have hlength := length_scanFrom hscan
  cases inComment <;> simpa [Mode.pending] using hlength

end Jack.Lexeme

namespace Jack.Lexer

/-- What the lines that are left add to the budget: their characters, and one for
each line. -/
def lineBudget : Source → Nat
  | [] => 0
  | line :: rest => line.length + 1 + lineBudget rest

/-- The budget counts the lexemes that wait and what the lines add. -/
theorem budget_eq (lexer : Lexer) :
    lexer.budget = lexer.queue.length + lineBudget lexer.lines := by
  have hfold : ∀ (lines : Source) (total : Nat),
      lines.foldl (fun total line => total + (line.length + 1)) total =
        total + lineBudget lines := by
    intro lines
    induction lines with
    | nil => intro total; rfl
    | cons line rest ih =>
      intro total
      rw [List.foldl_cons, ih, lineBudget]
      omega
  exact hfold lexer.lines lexer.queue.length

/-- Reading a line uses up at least as much of the budget as it adds lexemes. -/
theorem budget_readLine {lexer reached : Lexer} {line : Line} {rest : Source}
    (hlines : lexer.lines = line :: rest) (hread : lexer.readLine line rest = .ok () reached) :
    reached.budget ≤ lexer.budget := by
  unfold readLine at hread
  cases line with
  | unreadable cause => cases hread
  | text characters =>
    dsimp only at hread
    split at hread
    · cases hread
    · cases hread
    · next scan hscan =>
      have hlexemes := Lexeme.length_scanLine hscan
      cases hread
      simp only [budget_eq, hlines, List.length_append, List.length_map, lineBudget, Line.length]
      omega

/-- Filling the queue stays within the budget. -/
theorem budget_fill {lines : Source} {lexer reached : Lexer} {more : Bool}
    (hlines : lexer.lines = lines) (hfill : fill lines lexer = .ok more reached) :
    reached.budget ≤ lexer.budget := by
  induction lines generalizing lexer with
  | nil =>
    cases hfill
    exact Nat.le_refl _
  | cons line rest ih =>
    rw [fill] at hfill
    split at hfill
    · cases hread : lexer.readLine line rest with
      | error error read =>
        rw [hread] at hfill
        cases hfill
      | ok _ read =>
        have hleft := after_readLine_lines lexer line rest
        rw [hread] at hfill hleft
        exact Nat.le_trans (ih hleft hfill) (budget_readLine hlines hread)
    · cases hfill
      exact Nat.le_refl _

/-- Taking a lexeme from the queue uses up one of the budget. -/
theorem budget_take {lexer reached : Lexer} {token : Token}
    (htake : take lexer = .ok token reached) : reached.budget + 1 = lexer.budget := by
  unfold take at htake
  split at htake
  · cases htake
  · next lexeme queue hqueue =>
    split at htake
    · cases htake
      simp only [budget_eq, hqueue, List.length_cons]
      omega
    · cases htake

/-- A token that is pulled uses up one of the budget. -/
theorem budget_next {lexer reached : Lexer} {token : Token}
    (hpull : next lexer = .ok (some token) reached) : reached.budget + 1 ≤ lexer.budget := by
  simp only [next, hasNext, bind, EStateM.bind] at hpull
  cases hfill : fill lexer.lines lexer with
  | error error filled => simp [hfill] at hpull
  | ok more filled =>
    have hbudget := budget_fill rfl hfill
    cases more with
    | false =>
      simp only [hfill] at hpull
      cases hpull
    | true =>
      simp only [hfill, if_true, EStateM.bind] at hpull
      cases htake : take filled with
      | error error taken => simp [htake] at hpull
      | ok first taken =>
        rw [htake] at hpull
        cases hpull
        have htaken := budget_take htake
        omega

/-- A pull that reports the end does not add to the budget. -/
theorem budget_next_end {lexer reached : Lexer} (hpull : next lexer = .ok none reached) :
    reached.budget ≤ lexer.budget := by
  have hspent := spent_of_next hpull
  rw [budget_eq, hspent.lines, hspent.queue]
  exact Nat.zero_le _

/-- **The budget suffices.** A lexer yields at most as many tokens as its budget. -/
theorem Yields.length_le_budget {lexer : Lexer} {tokens : List Token}
    (hyields : Yields lexer tokens) : tokens.length ≤ lexer.budget := by
  induction hyields with
  | done _ => exact Nat.zero_le _
  | more hpull _ ih =>
    have hstep := budget_next hpull
    rw [List.length_cons]
    omega

end Jack.Lexer

namespace Jack

/-- The source text lexes to these tokens, without an error. -/
def HasTokens (source : String) (tokens : List Token) : Prop :=
  Lexer.results (Lexer.ofText source) = tokens.map Except.ok

/-- A stream of tokens that was evaluated. -/
theorem HasTokens.of_pulled {source : String} {tokens : List Token} (pulls : Nat)
    (h : Lexer.pulled pulls (Lexer.ofText source) = some tokens) : HasTokens source tokens :=
  Lexer.yields_iff_results.1 (Lexer.yields_of_pulled h)

end Jack
