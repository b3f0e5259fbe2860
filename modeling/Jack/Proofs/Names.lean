/-
The names that code is made of.

A scan collects words, delimiters and the beginnings of string constants (`Lexeme.Formed`), so
an identifier that a lexer yields is a word: it has no blank, no line feed and no delimiter in
it. The names in the code of a class are put together from its identifiers: a routine is called
by the name of a class or type, a dot and the name of the routine, and labels have names of
their own (`Command.WellNamed`). Every command is therefore written on one line.
-/
import Jack.Proofs.Operands
import Jack.Proofs.Printing

set_option autoImplicit false

namespace Jack

open Vm (Command)

/-! ## Words -/

/-- A text that can be a word of a source. -/
structure IsWord (text : String) : Prop where
  ne_nil : text.toList ≠ []
  goesOn : ∀ c ∈ text.toList, GoesOn c

/-- A word, as a finite check of its characters. -/
theorem IsWord.of_all {text : String} (hne : text.toList ≠ [])
    (hall : text.toList.all fun c => decide (GoesOn c)) : IsWord text :=
  ⟨hne, fun c hc => of_decide_eq_true (List.all_eq_true.1 hall c hc)⟩

/-! ## What a scan finds -/

namespace Lexeme

/-- The three things that a scan finds. -/
inductive Formed : List Char → Prop where
  | string {content : List Char} (hcontent : '"' ∉ content) : Formed ('"' :: content)
  | delimiter {c : Char} (hc : isDelimiter c = true) : Formed [c]
  | word {word : List Char} (hne : word ≠ []) (hword : ∀ c ∈ word, GoesOn c) : Formed word

/-- What a scan has begun can still become one of these things. -/
def Mode.Formed : Mode → Prop
  | .code word => ∀ c ∈ word, GoesOn c
  | .string content => '"' ∉ content
  | .comment => True

/-- Putting away the word that was being read adds a well-formed text, or nothing if there was no
word. -/
theorem formed_flush {word : List Char} {found : List (List Char)}
    (hword : (Mode.code word).Formed) (hfound : ∀ text ∈ found, Formed text) :
    ∀ text ∈ flush word found, Formed text := by
  unfold flush
  by_cases hempty : word.isEmpty = true
  · rwa [if_pos hempty]
  · rw [if_neg hempty]
    refine List.forall_mem_cons.2 ⟨.word ?_ ?_, hfound⟩
    · simpa using hempty
    · intro c hc
      exact hword c (List.mem_reverse.1 hc)

theorem Mode.formed_code_nil : (Mode.code []).Formed := fun _ hc => absurd hc List.not_mem_nil

/-- A scan goes on finding words, delimiters and string constants. -/
theorem formed_of_scanFrom {mode : Mode} {found : List (List Char)} {line : List Char}
    {scan : Scan} (hmode : mode.Formed) (hfound : ∀ text ∈ found, Formed text)
    (hscan : scanFrom mode found line = .ok scan) : ∀ text ∈ scan.lexemes, Formed text := by
  fun_induction scanFrom mode found line with
  | case1 found =>
    cases hscan
    exact fun text hmem => hfound text (List.mem_reverse.1 hmem)
  | case2 found rest ih => exact ih Mode.formed_code_nil hfound hscan
  | case3 found c rest _ ih => exact ih trivial hfound hscan
  | case4 content found => cases hscan
  -- the quote that closes a string constant is left out of it, and its content has none
  | case5 content found rest ih =>
    refine ih Mode.formed_code_nil (List.forall_mem_cons.2 ⟨.string ?_, hfound⟩) hscan
    exact fun hquote => hmode (List.mem_reverse.1 hquote)
  | case6 content found c rest hc ih =>
    refine ih ?_ hfound hscan
    exact fun hquote => (List.mem_cons.1 hquote).elim (Ne.symm hc) hmode
  | case7 word found =>
    cases hscan
    exact fun text hmem => formed_flush hmode hfound text (List.mem_reverse.1 hmem)
  | case8 word found rest =>
    cases hscan
    exact fun text hmem => formed_flush hmode hfound text (List.mem_reverse.1 hmem)
  | case9 word found rest ih => exact ih trivial (formed_flush hmode hfound) hscan
  | case10 word found rest _ _ ih =>
    exact ih (fun hmem => absurd hmem List.not_mem_nil) (formed_flush hmode hfound) hscan
  | case11 word found c rest _ _ _ _ ih =>
    exact ih Mode.formed_code_nil (formed_flush hmode hfound) hscan
  | case12 word found c rest _ _ _ _ hdelimiter ih =>
    refine ih Mode.formed_code_nil ?_ hscan
    exact List.forall_mem_cons.2 ⟨.delimiter hdelimiter, formed_flush hmode hfound⟩
  -- a character that goes on with a word is the only one that is added to it
  | case13 word found c rest _ _ _ hspace hdelimiter hpart ih =>
    refine ih (List.forall_mem_cons.2 ⟨⟨hpart, ?_, ?_⟩, hmode⟩) hfound hscan
    · simpa using hspace
    · simpa using hdelimiter
  | case14 word found c rest => cases hscan

/-- Whatever a line is divided into is well formed. -/
theorem formed_of_scanLine {inComment : Bool} {line : List Char} {scan : Scan}
    (hscan : scanLine inComment line = .ok scan) : ∀ text ∈ scan.lexemes, Formed text := by
  refine formed_of_scanFrom ?_ (fun _ hmem => absurd hmem List.not_mem_nil) hscan
  cases inComment with
  | true => trivial
  | false => exact Mode.formed_code_nil

/-- Of the three things, only a word is an identifier. -/
theorem isWord_of_classify (lexeme : Lexeme) {name : String} (hformed : Formed lexeme.text)
    (hclassify : lexeme.classify = .ok (.identifier name)) : IsWord name := by
  obtain ⟨line, text⟩ := lexeme
  cases hformed with
  | string hcontent => simp [classify] at hclassify
  | @delimiter c hc =>
    unfold classify at hclassify
    dsimp only at hclassify
    by_cases hquote : c = '"'
    · rw [if_pos hquote] at hclassify
      cases hclassify
    · rw [if_neg hquote, List.isEmpty_nil, Bool.true_and, if_pos hc] at hclassify
      cases hclassify
  | word hne hword =>
    suffices hname : name = String.ofList text by
      rw [hname]
      exact ⟨by rwa [String.toList_ofList], by rwa [String.toList_ofList]⟩
    unfold classify at hclassify
    dsimp only at hclassify
    repeat' split at hclassify
    all_goals first | cases hclassify; rfl | cases hclassify

end Lexeme

/-! ## What a source yields -/

/-- The identifiers of a source are words. -/
theorem isWord_of_mem_eventsFrom {source : Source} {inComment : Bool} {linesRead line : Nat}
    {name : String} (hmem : .token (.identifier name) line ∈ eventsFrom inComment linesRead source) :
    IsWord name := by
  fun_induction eventsFrom inComment linesRead source with
  | case1 => exact absurd hmem List.not_mem_nil
  | case2 inComment linesRead cause rest ih =>
    rcases List.mem_cons.1 hmem with hfirst | hrest
    · cases hfirst
    · exact ih hrest
  | case3 inComment linesRead characters rest fault hscan ih =>
    rcases List.mem_cons.1 hmem with hfirst | hrest
    · cases hfirst
    · exact ih hrest
  | case4 inComment linesRead characters rest scan hscan ih =>
    -- the identifier is read from a lexeme of this line, or stands on a later one
    rcases List.mem_append.1 hmem with hline | hrest
    · obtain ⟨text, htext, hevent⟩ := List.mem_map.1 hline
      refine Lexeme.isWord_of_classify ⟨linesRead + 1, text⟩
        (Lexeme.formed_of_scanLine hscan text htext) ?_
      rw [Lexeme.event] at hevent
      split at hevent
      · next token hclassify =>
        cases hevent
        exact hclassify
      · cases hevent
    · exact ih hrest

/-- A source that lexes without an error has only words for identifiers. -/
theorem HasTokens.isWord {source : String} {tokens : List Token} (h : HasTokens source tokens)
    {name : String} (hmem : .identifier name ∈ tokens) : IsWord name := by
  have haligned : (Lexer.ofText source).Aligned := Lexer.aligned_ofBytes _
  have hpending : (Lexer.ofText source).pending.map Event.result = tokens.map Except.ok :=
    (Lexer.results_eq_pending haligned).symm.trans h
  have hresult : Except.ok (.identifier name) ∈ (Lexer.ofText source).pending.map Event.result := by
    rw [hpending]
    exact List.mem_map_of_mem hmem
  obtain ⟨event, hevent, hok⟩ := List.mem_map.1 hresult
  cases event with
  | error error => cases hok
  | token token line =>
    cases hok
    exact isWord_of_mem_eventsFrom (show _ ∈ eventsFrom _ _ _ from hevent)

/-! ## Names in commands -/

namespace Vm

/-- A label has one of the names that conditionals and loops give, and a routine is called by
two words with a dot between them. -/
def Command.WellNamed : Command → Prop
  | .label name | .goto name | .ifGoto name =>
    ∃ (tag : Syntax.LabelTag) (number : Nat), name = tag.name number
  | .call routine _ | .function routine _ =>
    ∃ owner name, IsWord owner ∧ IsWord name ∧ routine = owner ++ "." ++ name
  | _ => True

/-- Every command of a piece of code is well named. -/
def WellNamed (code : List Command) : Prop := ∀ command ∈ code, command.WellNamed

namespace WellNamed

variable {code first second : List Command} {command : Command}

theorem nil : WellNamed [] := fun _ hmem => absurd hmem List.not_mem_nil

theorem cons (h : command.WellNamed) (h' : WellNamed code) : WellNamed (command :: code) :=
  List.forall_mem_cons.2 ⟨h, h'⟩

theorem append (h : WellNamed first) (h' : WellNamed second) : WellNamed (first ++ second) :=
  List.forall_mem_append.2 ⟨h, h'⟩

end WellNamed

end Vm

namespace Syntax

open Vm (WellNamed)

/-! ## Identifiers in trees -/

/-- All identifiers among some tokens are words. -/
def Worded (tokens : List Token) : Prop := ∀ name, .identifier name ∈ tokens → IsWord name

/-- Tokens have words for names if both parts of them have. -/
theorem worded_append {first second : List Token} :
    Worded (first ++ second) ↔ Worded first ∧ Worded second := by
  simp only [Worded, List.mem_append, or_imp, forall_and]

theorem worded_identifier {name : String} {rest : List Token} :
    Worded (.identifier name :: rest) ↔ IsWord name ∧ Worded rest := by
  simp [Worded, or_imp, forall_and]

theorem worded_symbol {c : Char} {rest : List Token} :
    Worded (.symbol c :: rest) ↔ Worded rest := by
  simp [Worded]

theorem worded_keyword {keyword : Keyword} {rest : List Token} :
    Worded (.keyword keyword :: rest) ↔ Worded rest := by
  simp [Worded]

/-- The commas between arguments are no identifiers. -/
theorem Arguments.worded_moreTokens (tree : Arguments) :
    Worded tree.moreTokens ↔ Worded tree.tokens := by
  cases tree with
  | nil => exact Iff.rfl
  | cons first rest => exact worded_symbol

/-- A scope whose class and types have words for names. -/
structure Scope.Worded (scope : Scope) : Prop where
  className : IsWord scope.className
  types : ∀ name symbol, scope.resolve? name = some symbol → IsWord symbol.type

variable {scope : Scope}

theorem wellNamed_pushName (scope : Scope) (name : String) : WellNamed (scope.pushName name) := by
  unfold Scope.pushName
  cases scope.resolve? name with
  | none => exact .nil
  | some symbol => exact .cons trivial .nil

theorem wellNamed_popName (scope : Scope) (name : String) : WellNamed (scope.popName name) := by
  unfold Scope.popName
  cases scope.resolve? name with
  | none => exact .nil
  | some symbol => exact .cons trivial .nil

/-- The routine of a call is two words with a dot between them. -/
theorem wellNamed_call {owner name : String} (howner : IsWord owner) (hname : IsWord name)
    (arguments : Nat) : (Command.call (owner ++ "." ++ name) arguments).WellNamed :=
  ⟨owner, name, howner, hname, rfl⟩

/-- The routines of the library have well-formed names too. -/
theorem wellNamed_library {routine : String} (owner name : String) (arguments : Nat)
    (hroutine : routine = owner ++ "." ++ name)
    (howner : owner.toList ≠ [] ∧ owner.toList.all fun c => decide (GoesOn c))
    (hname : name.toList ≠ [] ∧ name.toList.all fun c => decide (GoesOn c)) :
    (Command.call routine arguments).WellNamed :=
  ⟨owner, name, .of_all howner.1 howner.2, .of_all hname.1 hname.2, hroutine⟩

/-- The calls for a string are those of the system, whose names are well formed. -/
theorem wellNamed_stringCode (content : String) : WellNamed (stringCode content) := by
  refine .cons trivial (.cons (wellNamed_library "String" "new" 1 rfl (by decide +kernel)
    (by decide +kernel)) ?_)
  intro command hmem
  obtain ⟨c, -, hmem⟩ := List.mem_flatMap.1 hmem
  rcases List.mem_pair.1 hmem with rfl | rfl
  · trivial
  · exact wellNamed_library "String" "appendChar" 2 rfl (by decide +kernel) (by decide +kernel)

/-- Two of the operators are calls of the system, and the others have no names. -/
theorem BinaryOperator.wellNamed_command (operator : BinaryOperator) :
    operator.command.WellNamed := by
  cases operator with
  | multiply => exact wellNamed_library "Math" "multiply" 2 rfl (by decide +kernel) (by decide +kernel)
  | divide => exact wellNamed_library "Math" "divide" 2 rfl (by decide +kernel) (by decide +kernel)
  | _ => trivial

/-! ## The code of a body -/

mutual

/-- The names in the commands of a term are names of its tokens, or the scope has them: its class
and the classes of its variables. -/
theorem Term.wellNamed_code (tree : Term) (hscope : scope.Worded) (htokens : Worded tree.tokens) :
    WellNamed (tree.code scope) := by
  match tree with
  | .integer _ => exact .cons trivial .nil
  | .string content => exact wellNamed_stringCode content
  | .word constant => exact .cons (by cases constant <;> trivial) .nil
  | .var name => exact wellNamed_pushName scope name
  | .element array index =>
    rw [Term.tokens, worded_identifier, worded_symbol, worded_append] at htokens
    have hindex := index.wellNamed_code hscope htokens.2.1
    refine ((wellNamed_pushName scope array).append hindex).append ?_
    exact .cons trivial (.cons trivial (.cons trivial .nil))
  | .call invoked => exact invoked.wellNamed_code hscope htokens
  | .group inner =>
    rw [Term.tokens, worded_symbol, worded_append] at htokens
    exact inner.wellNamed_code hscope htokens.1
  | .unary operator operand =>
    rw [Term.tokens, worded_symbol] at htokens
    refine (operand.wellNamed_code hscope htokens).append ?_
    exact .cons (by cases operator <;> trivial) .nil

/-- The commands of an expression are those of its terms and operators. -/
theorem Expression.wellNamed_code (tree : Expression) (hscope : scope.Worded)
    (htokens : Worded tree.tokens) : WellNamed (tree.code scope) := by
  match tree with
  | .chain first rest =>
    rw [Expression.tokens, worded_append] at htokens
    exact (first.wellNamed_code hscope htokens.1).append (rest.wellNamed_code hscope htokens.2)

theorem Operations.wellNamed_code (tree : Operations) (hscope : scope.Worded)
    (htokens : Worded tree.tokens) : WellNamed (tree.code scope) := by
  match tree with
  | .nil => exact .nil
  | .cons operator operand rest =>
    rw [Operations.tokens, worded_symbol, worded_append] at htokens
    have hrest := rest.wellNamed_code hscope htokens.2
    exact (operand.wellNamed_code hscope htokens.1).append (.cons operator.wellNamed_command hrest)

/-- A call names the class of the receiver, or the class that is compiled, or the word in front of
its dot. -/
theorem Call.wellNamed_code (tree : Call) (hscope : scope.Worded) (htokens : Worded tree.tokens) :
    WellNamed (tree.code scope) := by
  match tree with
  | .bare routine list =>
    rw [Call.tokens, worded_identifier, worded_symbol, worded_append] at htokens
    obtain ⟨hroutine, hlist, -⟩ := htokens
    refine .cons trivial ((list.wellNamed_code hscope hlist).append ?_)
    exact .cons (wellNamed_call hscope.className hroutine _) .nil
  | .dotted owner routine list =>
    rw [Call.tokens, worded_identifier, worded_symbol, worded_identifier, worded_symbol,
      worded_append] at htokens
    obtain ⟨howner, hroutine, hlist, -⟩ := htokens
    have harguments := list.wellNamed_code hscope hlist
    unfold Call.code
    split
    · next symbol hresolve =>
      have htype := hscope.types owner symbol hresolve
      exact .cons trivial (harguments.append (.cons (wellNamed_call htype hroutine _) .nil))
    · exact harguments.append (.cons (wellNamed_call howner hroutine _) .nil)

theorem Arguments.wellNamed_code (tree : Arguments) (hscope : scope.Worded)
    (htokens : Worded tree.tokens) : WellNamed (tree.code scope) := by
  match tree with
  | .nil => exact .nil
  | .cons first rest =>
    rw [Arguments.tokens, worded_append, rest.worded_moreTokens] at htokens
    exact (first.wellNamed_code hscope htokens.1).append (rest.wellNamed_code hscope htokens.2)

end

/-- Labels are words with a number, so what a conditional adds is well named. -/
theorem wellNamed_conditionalCode {condition block otherwise : List Command} (number : Nat)
    (hcondition : WellNamed condition) (hblock : WellNamed block)
    (hotherwise : WellNamed otherwise) :
    WellNamed (conditionalCode number condition block otherwise) := by
  refine .cons ⟨_, _, rfl⟩ (hcondition.append (.cons trivial (.cons ⟨_, _, rfl⟩ ?_)))
  refine hblock.append (.cons ⟨_, _, rfl⟩ (.cons ⟨_, _, rfl⟩ (hotherwise.append ?_)))
  exact .cons ⟨_, _, rfl⟩ .nil

/-- Labels are words with a number, so what a loop adds is well named. -/
theorem wellNamed_loopCode {condition body : List Command} (number : Nat)
    (hcondition : WellNamed condition) (hbody : WellNamed body) :
    WellNamed (loopCode number condition body) := by
  refine .cons ⟨_, _, rfl⟩ (hcondition.append (.cons trivial (.cons ⟨_, _, rfl⟩ ?_)))
  exact hbody.append (.cons ⟨_, _, rfl⟩ (.cons ⟨_, _, rfl⟩ .nil))

mutual

/-- The names in the commands of a statement are names of its tokens, of the scope, or labels. -/
theorem Statement.wellNamed_code (tree : Statement) (hscope : scope.Worded)
    (htokens : Worded tree.tokens) (number : Nat) : WellNamed (tree.code scope number) := by
  match tree with
  | .assign target value =>
    rw [Statement.tokens, worded_keyword, worded_identifier, worded_symbol, worded_append]
      at htokens
    exact (value.wellNamed_code hscope htokens.2.1).append (wellNamed_popName scope target)
  | .store target index value =>
    rw [Statement.tokens, worded_keyword, worded_identifier, worded_symbol, worded_append,
      worded_symbol, worded_symbol, worded_append] at htokens
    obtain ⟨-, hindex, hvalue, -⟩ := htokens
    have haddress := (wellNamed_pushName scope target).append (index.wellNamed_code hscope hindex)
    refine (value.wellNamed_code hscope hvalue).append (.cons trivial (haddress.append ?_))
    exact .cons trivial (.cons trivial (.cons trivial (.cons trivial .nil)))
  -- labels are named by the compiler, so only what is called has to be looked at
  | .ifThen condition block =>
    rw [Statement.tokens, worded_keyword, worded_symbol, worded_append, worded_symbol,
      worded_symbol, worded_append] at htokens
    obtain ⟨hcondition, hblock, -⟩ := htokens
    exact wellNamed_conditionalCode number (condition.wellNamed_code hscope hcondition)
      (block.wellNamed_code hscope hblock _) .nil
  | .ifElse condition block otherwise =>
    rw [Statement.tokens, worded_keyword, worded_symbol, worded_append, worded_symbol,
      worded_symbol, worded_append, worded_symbol, worded_keyword, worded_symbol, worded_append]
      at htokens
    obtain ⟨hcondition, hblock, hotherwise, -⟩ := htokens
    exact wellNamed_conditionalCode number (condition.wellNamed_code hscope hcondition)
      (block.wellNamed_code hscope hblock _) (otherwise.wellNamed_code hscope hotherwise _)
  | .loop condition body =>
    rw [Statement.tokens, worded_keyword, worded_symbol, worded_append, worded_symbol,
      worded_symbol, worded_append] at htokens
    obtain ⟨hcondition, hbody, -⟩ := htokens
    exact wellNamed_loopCode number (condition.wellNamed_code hscope hcondition)
      (body.wellNamed_code hscope hbody _)
  | .invoke call =>
    rw [Statement.tokens, worded_keyword, worded_append] at htokens
    exact (call.wellNamed_code hscope htokens.1).append (.cons trivial .nil)
  | .exit none => exact .cons trivial (.cons trivial .nil)
  | .exit (some value) =>
    rw [Statement.tokens, worded_keyword, worded_append] at htokens
    exact (value.wellNamed_code hscope htokens.1).append (.cons trivial .nil)

theorem Block.wellNamed_code (tree : Block) (hscope : scope.Worded) (htokens : Worded tree.tokens)
    (number : Nat) : WellNamed (tree.code scope number) := by
  match tree with
  | .nil => exact .nil
  | .cons first rest =>
    rw [Block.tokens, worded_append] at htokens
    exact (first.wellNamed_code hscope htokens.1 number).append
      (rest.wellNamed_code hscope htokens.2 _)

end

/-! ## The code of a class -/

/-- A type is named by a keyword or by a word. -/
theorem TypeName.isWord_text {type : TypeName} (htoken : Worded [type.token]) :
    IsWord type.text := by
  cases type with
  | named name => exact htoken name List.mem_cons_self
  | _ => exact .of_all (by decide) (by decide +kernel)

/-- A numbered variable has the type that it was declared with. -/
theorem exists_type_of_mem_numbered {vars : List Variable} {symbol : Symbol}
    (hmem : symbol ∈ numbered vars) : ∃ added ∈ vars, added.type = symbol.type := by
  induction vars using List.reverseRecOn with
  | nil => exact absurd hmem List.not_mem_nil
  | append_singleton vars last ih =>
    rw [numbered, List.foldl_append] at hmem
    rcases List.mem_append.1 hmem with hbefore | hlast
    · obtain ⟨added, hadded, htype⟩ := ih hbefore
      exact ⟨added, List.mem_append_left _ hadded, htype⟩
    · refine ⟨last, List.mem_append_right _ List.mem_cons_self, ?_⟩
      rw [List.mem_singleton.1 hlast]

/-- Variables have words for types. -/
theorem Declaration.isWord_type {declared : Declaration} {kind : VarKind} {added : Variable}
    (htokens : Worded declared.tokens) (hmem : added ∈ declared.vars kind) : IsWord added.type := by
  obtain ⟨name, -, rfl⟩ := List.mem_map.1 hmem
  rw [Declaration.tokens, ← List.singleton_append, worded_append] at htokens
  exact TypeName.isWord_text htokens.1

theorem worded_flatMap {β : Type} {tokensOf : β → List Token} {list : List β} {item : β}
    (h : Worded (list.flatMap tokensOf)) (hmem : item ∈ list) : Worded (tokensOf item) :=
  fun name hname => h name (List.mem_flatMap.2 ⟨item, hmem, hname⟩)

/-- What the tokens of a class say about its name, its declarations and its subroutines. -/
theorem ClassTree.worded_parts {tree : ClassTree} (htokens : Worded tree.tokens) :
    IsWord tree.name ∧ (∀ declared ∈ tree.declarations, Worded declared.declaration.tokens) ∧
      ∀ subroutine ∈ tree.subroutines, Worded subroutine.tokens := by
  rw [ClassTree.tokens, worded_keyword, worded_identifier, worded_symbol, worded_append,
    worded_append] at htokens
  obtain ⟨hname, hdeclarations, hsubroutines, -⟩ := htokens
  refine ⟨hname, ?_, fun subroutine hmem => worded_flatMap hsubroutines hmem⟩
  intro declared hmem
  have hdeclared : Worded declared.tokens := worded_flatMap hdeclarations hmem
  exact worded_keyword.1 hdeclared

/-- What the tokens of a subroutine say about its name, its parameters, its locals and its body. -/
theorem Subroutine.worded_parts {subroutine : Subroutine} (htokens : Worded subroutine.tokens) :
    IsWord subroutine.name ∧ (∀ parameter ∈ subroutine.parameters, IsWord parameter.type.text) ∧
      (∀ declared ∈ subroutine.locals, Worded declared.tokens) ∧ Worded subroutine.body.tokens := by
  rw [Subroutine.tokens, worded_keyword, ← List.singleton_append, worded_append,
    worded_identifier, worded_symbol, worded_append, worded_symbol, worded_symbol, worded_append,
    worded_append] at htokens
  obtain ⟨-, hname, hparameters, hlocals, hbody, -⟩ := htokens
  refine ⟨hname, ?_, ?_, hbody⟩
  · intro parameter hmem
    apply TypeName.isWord_text
    intro name hname
    refine hparameters name ?_
    rw [List.mem_singleton] at hname
    -- the first parameter has no comma in front of it
    cases hlist : subroutine.parameters with
    | nil =>
      rw [hlist] at hmem
      exact absurd hmem List.not_mem_nil
    | cons first rest =>
      rw [hlist] at hmem
      rcases List.mem_cons.1 hmem with rfl | hrest
      · exact List.mem_append_left _ (by simp [Parameter.tokens, hname])
      · refine List.mem_append_right _ (List.mem_flatMap.2 ⟨parameter, hrest, ?_⟩)
        simp [Parameter.tokens, hname]
  · intro declared hmem
    have hdeclared := worded_flatMap hlocals hmem
    exact worded_keyword.1 hdeclared

/-- The scope of a body, read off the tokens of its class. -/
theorem ClassTree.worded_scope {tree : ClassTree} (htokens : Worded tree.tokens)
    {subroutine : Subroutine} (hmem : subroutine ∈ tree.subroutines) :
    (tree.scope subroutine).Worded := by
  obtain ⟨hname, hdeclarations, hsubroutines⟩ := tree.worded_parts htokens
  obtain ⟨-, hparameters, hlocals, -⟩ := Subroutine.worded_parts (hsubroutines subroutine hmem)
  refine ⟨hname, ?_⟩
  intro name symbol hresolve
  -- a variable has the type that it was declared with, and the object of a method has the class
  rcases Scope.mem_of_resolve? hresolve with hinner | houter
  · obtain ⟨added, hadded, htype⟩ := exists_type_of_mem_numbered hinner
    rw [← htype]
    rw [Subroutine.vars, List.mem_append, List.mem_append] at hadded
    rcases hadded with (hthis | hparameter) | hlocal
    · by_cases hkind : subroutine.kind = .method
      · rw [if_pos hkind, List.mem_singleton] at hthis
        rw [hthis]
        exact hname
      · rw [if_neg hkind] at hthis
        exact absurd hthis List.not_mem_nil
    · obtain ⟨parameter, hlisted, rfl⟩ := List.mem_map.1 hparameter
      exact hparameters parameter hlisted
    · obtain ⟨declared, hdeclared, hvar⟩ := List.mem_flatMap.1 hlocal
      exact Declaration.isWord_type (hlocals declared hdeclared) hvar
  · obtain ⟨added, hadded, htype⟩ := exists_type_of_mem_numbered houter
    rw [← htype]
    obtain ⟨declared, hdeclared, hvar⟩ := List.mem_flatMap.1 hadded
    exact Declaration.isWord_type (hdeclarations declared hdeclared) hvar

/-- The commands of a subroutine are well named if the tokens of its class are: the scope of the
body is built from them. -/
theorem ClassTree.wellNamed_subroutineCode {tree : ClassTree} (htokens : Worded tree.tokens)
    {subroutine : Subroutine} (hmem : subroutine ∈ tree.subroutines) (number : Nat) :
    WellNamed (tree.subroutineCode number subroutine) := by
  obtain ⟨hname, -, hsubroutines⟩ := tree.worded_parts htokens
  obtain ⟨hroutine, -, -, hbody⟩ := Subroutine.worded_parts (hsubroutines subroutine hmem)
  have hentry : WellNamed (entryCode (counted tree.fieldCount) subroutine.kind) := by
    cases subroutine.kind with
    | constructor =>
      exact .cons trivial (.cons (wellNamed_library "Memory" "alloc" 1 rfl (by decide +kernel)
        (by decide +kernel)) (.cons trivial .nil))
    | function => exact .nil
    | method => exact .cons trivial (.cons trivial .nil)
  exact .cons ⟨_, _, hname, hroutine, rfl⟩
    (hentry.append (subroutine.body.wellNamed_code (tree.worded_scope htokens hmem) hbody number))

end Syntax

/-! ## Commands on lines -/

/-- A text without a line feed. -/
def OneLine (text : String) : Prop := '\n' ∉ text.toList

/-- Two texts without a line feed make one without. -/
theorem OneLine.append {first second : String} (h : OneLine first) (h' : OneLine second) :
    OneLine (first ++ second) := by
  rw [OneLine, String.toList_append, List.mem_append]
  exact fun hmem => hmem.elim h h'

/-- A word has no line feed in it. -/
theorem IsWord.oneLine {text : String} (h : IsWord text) : OneLine text := by
  intro hmem
  exact absurd (h.goesOn _ hmem) (by decide +kernel)

/-- A number has no line feed in it. -/
theorem oneLine_toString_nat (value : Nat) : OneLine (toString value) := by
  intro hmem
  exact absurd (isDigit_of_mem_toString hmem) (by decide)

/-- A number with a sign has no line feed in it. -/
theorem oneLine_toString_int (value : Int) : OneLine (toString value) := by
  cases value with
  | ofNat value => exact oneLine_toString_nat value
  | negSucc value =>
    rw [show toString (Int.negSucc value) = "-" ++ toString (value + 1) from rfl]
    exact OneLine.append (by unfold OneLine; decide) (oneLine_toString_nat _)

/-- A label is a word, for its digits go on with its tag. -/
theorem Syntax.LabelTag.isWord_name (tag : LabelTag) (number : Nat) : IsWord (tag.name number) := by
  have htag : IsWord tag.text := by
    cases tag <;> exact .of_all (by decide) (by decide +kernel)
  rw [LabelTag.name]
  constructor
  · rw [String.toList_append]
    exact List.append_ne_nil_of_left_ne_nil htag.ne_nil _
  · intro c hc
    rw [String.toList_append, List.mem_append] at hc
    rcases hc with hc | hc
    · exact htag.goesOn c hc
    · exact (goesOn_of_isDigit (isDigit_of_mem_toString hc)).1

theorem Vm.Segment.oneLine_render (segment : Segment) : OneLine segment.render := by
  unfold OneLine
  cases segment <;> decide

/-- A well-named command is written on one line. -/
theorem Vm.Command.WellNamed.oneLine_render {command : Command} (h : command.WellNamed) :
    OneLine command.render := by
  have hblank : OneLine " " := by unfold OneLine; decide
  have hdot : OneLine "." := by unfold OneLine; decide
  have hopcode : ∀ opcode ∈ ["push ", "pop ", "label ", "goto ", "if-goto ", "call ", "function "],
      OneLine opcode := by
    unfold OneLine
    decide
  -- opcodes, segments and numbers are on one line, and so are the names by assumption
  cases command with
  | push segment index =>
    exact (((hopcode _ (by simp)).append segment.oneLine_render).append hblank).append
      (oneLine_toString_int index)
  | pop segment index =>
    exact (((hopcode _ (by simp)).append segment.oneLine_render).append hblank).append
      (oneLine_toString_int index)
  | operation op =>
    unfold OneLine
    cases op <;> decide
  | label name =>
    obtain ⟨tag, number, rfl⟩ := h
    exact (hopcode _ (by simp)).append (tag.isWord_name number).oneLine
  | goto name =>
    obtain ⟨tag, number, rfl⟩ := h
    exact (hopcode _ (by simp)).append (tag.isWord_name number).oneLine
  | ifGoto name =>
    obtain ⟨tag, number, rfl⟩ := h
    exact (hopcode _ (by simp)).append (tag.isWord_name number).oneLine
  | call routine arguments =>
    obtain ⟨owner, name, howner, hname, rfl⟩ := h
    have hroutine := (howner.oneLine.append hdot).append hname.oneLine
    exact (((hopcode _ (by simp)).append hroutine).append hblank).append
      (oneLine_toString_nat arguments)
  | function routine locals =>
    obtain ⟨owner, name, howner, hname, rfl⟩ := h
    have hroutine := (howner.oneLine.append hdot).append hname.oneLine
    exact (((hopcode _ (by simp)).append hroutine).append hblank).append
      (oneLine_toString_nat locals)
  | ret =>
    unfold OneLine
    decide

end Jack
