/-
What the rules of a class recognise.

Declarations and subroutines end with a symbol of their own, so anything may stand behind them;
a loop over them ends where no further one begins. A class is all there is of a source: nothing
stands behind it.
-/
import Jack.Proofs.RecognisedBody

set_option autoImplicit false

namespace Jack.Compiler

open Syntax

variable {α β : Type} {bound budget : Nat} {follow : List Token → Prop} {text : List Token}
  {token : Token}

/-! ## Declarations -/

/-- No further round begins. -/
def Stops (head : Token → Option α) (behind : List Token) : Prop :=
  ∀ token ∈ behind.head?, head token = none

/-- A loop over trees that are told from everything else by their first token. -/
theorem recognises_many {tree : β → List Token} {head : Token → Option α}
    {rule : α → CompileM Unit} {tails : Language Token}
    (htails : ∀ {token tail}, token :: tail ∈ sentences tree ↔
      (head token).isSome ∧ tail ∈ tails)
    (hne : ∀ found, tree found ≠ [])
    (hrule : ∀ token found, head token = some found →
      RecognisesFrom token bound ({[token]} * tails) (fun _ => True) (rule found))
    (hbudget : bound ≤ budget) :
    Recognises bound (repeated tree) (Stops head) (many head rule budget) := by
  have hwords : ∀ text ∈ sentences tree, text ≠ [] := by
    rintro _ ⟨found, rfl⟩
    exact hne found
  have hround : ∀ token found, head token = some found →
      RecognisesFrom token bound (sentences tree) (fun _ => True) (rule found) := by
    intro token found hfound
    refine (hrule token found hfound).of_tails (fun tail => ?_) hwords
    rw [htails, hfound, Option.isSome_some, and_iff_right rfl]
  refine (many_loops head rule).recognises (repeated_eq tree) ?_ hround (fun _ hstops => hstops)
    (fun _ _ _ _ => trivial) hbudget ()
  intro text htext
  obtain ⟨token, rest, rfl⟩ := List.exists_cons_of_ne_nil (hwords text htext)
  exact ⟨token, rest, rfl, (htails.1 htext).1⟩

/-- A declaration is a type, names with commas between them and a semicolon. Nothing but the
semicolon may stand behind the last name. -/
theorem recognisesFrom_varDeclaration (hbound : bound ≤ budget) (kind : VarKind) :
    RecognisesFrom token bound ({[token]} * declarations) follow (varDeclaration budget kind) := by
  have hnames : Recognises bound (names * moreNames) (Closes ';') (commaList name budget) := by
    have hname : Recognises bound names (fun _ => True) name := recognises_name
    refine recognises_commaList moreNames_eq hname ?_ (fun _ _ _ _ => trivial) hbound
    exact fun behind hcloses => hcloses.head_ne (by decide)
  have hdeclaration : Recognises bound declarations follow (declaration budget kind) := by
    rw [declarations_eq]
    refine recognises_type.bind_closed fun type => hnames.bind (fun names => ?_) ?_
    · exact (silent_defineAll type kind names).recognises_bind fun _ => recognises_expect _
    · rintro _ rfl behind -
      rfl
  exact (recognisesFrom_advance hdeclaration).mono (Nat.le_succ _)

/-- The declarations of a class are told from its subroutines by their first word. -/
theorem recognises_classVariables (hbound : bound ≤ budget) :
    Recognises bound (repeated ClassVarDeclaration.tokens) (Stops classVarKind?)
      (many classVarKind? (varDeclaration budget) budget) :=
  recognises_many cons_mem_classVariables (fun _ => List.cons_ne_nil _ _)
    (fun _ kind _ => recognisesFrom_varDeclaration hbound kind) hbound

/-- The declarations of a body are told from its statements by their first word. -/
theorem recognises_bodyVariables (hbound : bound ≤ budget) :
    Recognises bound (repeated fun declared : Declaration => .keyword .varKw :: declared.tokens)
      (Stops bodyVarKind?) (many bodyVarKind? (varDeclaration budget) budget) :=
  recognises_many cons_mem_bodyVariables (fun _ => List.cons_ne_nil _ _)
    (fun _ kind _ => recognisesFrom_varDeclaration hbound kind) hbound

/-! ## Subroutines -/

/-- A list of parameters is empty if the closing parenthesis comes at once. -/
theorem recognises_parameters (hbound : bound ≤ budget) :
    Recognises bound parameterLists (Closes ')') (parameters budget) := by
  have hparameter : Recognises bound Syntax.parameters (fun _ => True)
      (type >>= fun type => name >>= fun name => pure (type, name)) := by
    rw [parameters_eq]
    exact recognises_type.bind_closed fun type =>
      recognises_name.bind_silent fun name => silent_pure (type, name)
  have hlist : Recognises bound (Syntax.parameters * moreParameters) (Closes ')')
      (commaList (type >>= fun type => name >>= fun name => pure (type, name)) budget) := by
    refine recognises_commaList moreParameters_eq hparameter ?_ (fun _ _ _ _ => trivial) hbound
    exact fun behind hcloses => hcloses.head_ne (by decide)
  rw [parameterLists_eq]
  refine recognises_if (atSymbol_bind ')') ((recognises_pure ()).at_token _)
    (hlist.bind_silent silent_defineParameters) ?_ ?_
  · rintro _ rfl behind hcloses
    exact hcloses
  · rintro _ ⟨_, ⟨⟨type, name⟩, rfl⟩, more, -, rfl⟩ behind -
    cases type <;> simp [Parameter.tokens, TypeName.token]

/-- Statements and the brace behind them do not begin like a declaration. -/
theorem stops_bodyVariables (htext : text ∈ blocks * {[.symbol '}']}) (behind : List Token) :
    Stops bodyVarKind? (text ++ behind) := by
  obtain ⟨_, ⟨tree, rfl⟩, _, rfl, rfl⟩ := htext
  cases tree with
  | nil =>
    rintro _ ⟨⟩
    rfl
  | cons first others =>
    obtain ⟨keyword, tail, htokens, hkind, -⟩ := first.exists_tail
    intro token htoken
    rw [Block.tokens, htokens] at htoken
    obtain rfl := Option.some.inj htoken
    cases keyword with
    | varKw => cases hkind
    | _ => rfl

/-- A body is its declarations and its statements in braces. What is noted and emitted in between
reads nothing. -/
theorem recognises_subroutineBody (hbound : bound + 1 ≤ budget) (kind : SubroutineKind) :
    Recognises bound bodies follow (subroutineBody budget kind) := by
  have hvariables := recognises_bodyVariables (Nat.le_of_lt hbound)
  have hstatements : Recognises bound (blocks * {[.symbol '}']}) follow
      (statements budget >>= fun _ => expectSymbol '}') := by
    refine (recognises_statements hbound).bind (fun _ => recognises_expect _) ?_
    rintro _ rfl behind -
    rfl
  refine (recognises_expect_bind (hvariables.bind (fun _ => ?_) ?_)).mono (Nat.le_succ _)
  · refine silent_look.recognises_bind fun _ => silent_look.recognises_bind fun _ => ?_
    refine silent_look.recognises_bind fun _ => (silent_note _).recognises_bind fun _ => ?_
    refine (silent_note _).recognises_bind fun _ => (silent_emit _).recognises_bind fun _ => ?_
    exact (silent_emitAll _).recognises_bind fun _ => hstatements
  · intro text htext behind _
    exact stops_bodyVariables htext behind

/-- A subroutine is a return type, a name, a list of parameters and a body. That a method declares
its object is nothing that is read. -/
theorem recognisesFrom_subroutine (hbound : bound + 1 ≤ budget) (kind : SubroutineKind) :
    RecognisesFrom token bound ({[token]} * subroutineTails) follow (subroutine budget kind) := by
  have hlist : Recognises bound (enclosed '(' parameterLists ')') (fun _ => True)
      (between '(' (parameters budget) ')') :=
    (recognises_between (recognises_parameters (Nat.le_of_lt hbound)) fun _ => rfl).mono
      (Nat.le_succ _)
  have hroutine : Recognises bound (enclosed '(' parameterLists ')' * bodies) follow
      (between '(' (parameters budget) ')' >>= fun _ => subroutineBody budget kind) :=
    hlist.bind_closed fun _ => recognises_subroutineBody hbound kind
  refine (recognisesFrom_advance ?_).mono (Nat.le_succ _)
  refine Silent.recognises_bind (silent_modify (fun _ => rfl) fun _ => rfl) fun _ => ?_
  refine recognises_returnType.bind_closed fun _ => recognises_name.bind_closed fun routine => ?_
  refine Silent.recognises_bind (silent_modify (fun _ => rfl) fun _ => rfl) fun _ => ?_
  dsimp only
  split
  · refine silent_look.recognises_bind fun _ => ?_
    exact (silent_define _ _ _).recognises_bind fun _ => hroutine
  · exact hroutine

/-- The subroutines of a class are told from its closing brace by their first word. -/
theorem recognises_subroutines (hbound : bound + 1 ≤ budget) :
    Recognises bound (repeated Subroutine.tokens) (Stops subroutineKind?)
      (many subroutineKind? (subroutine budget) budget) :=
  recognises_many cons_mem_subroutines (fun _ => List.cons_ne_nil _ _)
    (fun _ kind _ => recognisesFrom_subroutine hbound kind) (Nat.le_of_lt hbound)

/-! ## Classes -/

/-- Subroutines and the brace behind them do not begin like a declaration. -/
theorem stops_classVariables (htext : text ∈ repeated Subroutine.tokens * {[.symbol '}']})
    (behind : List Token) : Stops classVarKind? (text ++ behind) := by
  obtain ⟨_, ⟨trees, rfl⟩, _, rfl, rfl⟩ := htext
  cases trees with
  | nil =>
    rintro _ ⟨⟩
    rfl
  | cons first others =>
    rintro _ ⟨⟩
    cases first.kind <;> rfl

/-- **A class** is read from its first token to its last. -/
theorem recognises_classDeclaration (hbound : bound + 1 ≤ budget) :
    Recognises bound classes follow (classDeclaration budget) := by
  have hsubroutines : Recognises bound (repeated Subroutine.tokens * {[.symbol '}']}) follow
      (many subroutineKind? (subroutine budget) budget >>= fun _ => expectSymbol '}') := by
    refine (recognises_subroutines hbound).bind (fun _ => recognises_expect _) ?_
    rintro _ rfl behind - token ⟨⟩
    rfl
  have hmembers := (recognises_classVariables (Nat.le_of_lt hbound)).bind (fun _ => hsubroutines)
    fun _ htext behind _ => stops_classVariables htext behind
  rw [classes_eq]
  -- the name of the class is noted before the brace is read
  refine (recognises_expect_bind ?_).mono (Nat.le_succ _)
  refine recognises_name.bind_closed fun className => ?_
  refine Silent.recognises_bind (silent_modify (fun _ => rfl) fun _ => rfl) fun _ => ?_
  refine (silent_note _).recognises_bind fun _ => ?_
  exact (recognises_expect_bind hmembers).mono (Nat.le_succ _)

/-- Closing the writer reads nothing, whether the flush fails or not. -/
theorem silent_close : Silent close := by
  rintro ⟨lexer, ⟨⟨bytes, capacity, flushFails, flushes⟩, closed, log⟩, symbols, current,
    className, subroutineName, labels, deferred⟩
  cases closed <;> cases flushFails <;> exact ⟨rfl, rfl, fun _ _ _ hraised => nomatch hraised⟩

/-- Nothing stands behind a class. -/
def AtEnd (behind : List Token) : Prop := behind = []

/-- At the end of a run the empty sentence is expected with nothing behind it, so any further token
is refused. -/
theorem recognises_finish : Recognises bound 1 AtEnd finish := by
  have hclose : ∀ {bound}, Recognises bound 1 AtEnd close := silent_close.recognises
  have hnil : ∃ text, text ∈ (1 : Language Token) := ⟨[], Language.nil_mem_one⟩
  refine recognises_of_tokens hnil ?_ ?_
  · intro compiler hnone
    rw [finish, look_bind, hnone]
    exact hclose.settles compiler [] (Nat.le_refl 0) hnone
  · intro token compiler rest hlength hahead
    rw [finish, look_bind, hahead.1]
    have hwrong : Settles 1 AtEnd (token :: rest)
        (unexpected "end of input" compiler : EStateM.Result Error Compiler Unit) := by
      refine settles_unexpected hahead hnil ?_ _
      rintro _ rfl _ rfl hhead
      cases hhead
    have hboth := hwrong.bind (fun _ reached _ rest _ _ hahead' =>
      hclose.settles reached rest (Nat.le_refl _) hahead') hnil
    rw [mul_one] at hboth
    apply hboth
    rintro _ rfl behind hend
    exact hend

/-- **A whole run** recognises the grammar, once the first token was pulled. -/
theorem recognises_source (hbound : bound + 1 ≤ budget) : Recognises bound classes AtEnd
    (classDeclaration budget >>= fun _ => finish) := by
  have hclass : Recognises bound classes (fun _ => True) (classDeclaration budget) :=
    recognises_classDeclaration hbound
  have hboth := hclass.bind_closed fun _ => recognises_finish
  rwa [mul_one] at hboth

end Jack.Compiler
