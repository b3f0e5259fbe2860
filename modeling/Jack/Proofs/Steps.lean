/-
What the rules of the grammar are made of.

Every rule is a sequence of the compiler's smallest steps. In between it may look at the state,
but only at a part of it: the current token, the symbol table and the two names. It looks at the
line of the source for one purpose, to report an error. `Composed Base action` says that an
action is put together in this way, with actions of the kind `Base` besides: the theorems
`composed_*` go through the rules once, and what holds of every step, or of every two runs that
go step by step, is then an induction over `Composed` and needs no rule of the grammar at all.

Rules that emit no labels need no base. Statements need the steps of `Special`: they take
numbers for labels, emit commands that are not known beforehand, and defer actions. Only an
action without special steps is ever deferred.
-/
import Jack.Compiler.Class
import Jack.Proofs.Machine

set_option autoImplicit false

namespace Jack.Compiler

open Vm (Command)

variable {α β : Type}

/-! ## Looking at the state -/

/-- Two states that a rule cannot tell apart by looking. -/
structure SameView (compiler other : Compiler) : Prop where
  current : compiler.current = other.current
  symbols : compiler.symbols = other.symbols
  className : compiler.className = other.className
  subroutineName : compiler.subroutineName = other.subroutineName

/-- What a rule has to complain about; the line is added when it fails. -/
inductive Complaint where
  | expected (wanted found : String)
  | tooManyArguments (callee : String)
  | undeclaredName (name : String)

/-- The error of a complaint on a line. -/
def Complaint.error : Complaint → Nat → Error
  | expected wanted found, line => .expected line wanted found
  | tooManyArguments callee, line => .tooManyArguments line callee
  | undeclaredName name, line => .undeclaredName line name

/-- Fails on the current line. -/
def complain (complaint : Complaint) : CompileM α := do
  throw (complaint.error (← lineNumber))

/-! ## Sequences of steps -/

/-- An action that is put together from steps, from looks at the state, and from actions of a
given kind. -/
inductive Composed (Base : (α : Type) → CompileM α → Prop) : {α : Type} → CompileM α → Prop where
  | base {α : Type} {action : CompileM α} (h : Base α action) : Composed Base action
  | pure {α : Type} (value : α) : Composed Base (pure value)
  | bind {α β : Type} {action : CompileM α} {next : α → CompileM β}
      (hfirst : Composed Base action) (hnext : ∀ value, Composed Base (next value)) :
      Composed Base (action >>= next)
  | look {α : Type} {next : Compiler → CompileM α}
      (hview : ∀ {compiler other : Compiler}, SameView compiler other → next compiler = next other)
      (hnext : ∀ compiler, Composed Base (next compiler)) : Composed Base (get >>= next)
  | complain {α : Type} (complaint : Complaint) : Composed Base (complain complaint : CompileM α)
  | advance : Composed Base advance
  | define (name type : String) (kind : VarKind) : Composed Base (define name type kind)
  | startSubroutine : Composed Base startSubroutine
  | nameSubroutine (subroutineName : String) : Composed Base (nameSubroutine subroutineName)
  | nameClass (className : String) : Composed Base (nameClass className)
  | note {event : LogEvent} (hevent : ∀ line, event ≠ .writing line) : Composed Base (note event)
  | emit {command : Command} (hplain : command.labelName? = none) : Composed Base (emit command)

section

variable {Base : (α : Type) → CompileM α → Prop}

/-! ## Reading -/

/-- What was found instead is read off the current token. The line is added by the step that fails,
so the complaint itself is the same on every line. -/
theorem composed_unexpected (wanted : String) : Composed Base (unexpected wanted : CompileM α) := by
  apply Composed.look
  · intro compiler other h
    simp only [h.current]
  · intro compiler
    exact .complain (.expected wanted _)

/-- Asking for a symbol looks at the current token only. Rules decide in this way where to go on,
and none of them looks further ahead than this. -/
theorem composed_atSymbol (c : Char) : Composed Base (atSymbol c) := by
  apply Composed.look
  · intro compiler other h
    simp only [h.current]
  · intro compiler
    exact .pure _

/-- Asking for a keyword looks at the current token only. -/
theorem composed_atKeyword (keyword : Keyword) : Composed Base (atKeyword keyword) := by
  apply Composed.look
  · intro compiler other h
    simp only [h.current]
  · intro compiler
    exact .pure _

/-- A token that has to be there is passed over, or complained about. It does not matter which token
it is, so this covers keywords and symbols alike. -/
theorem composed_expect (token : Token) : Composed Base (expect token) := by
  apply Composed.look
  · intro compiler other h
    simp only [h.current]
  · intro compiler
    split
    · exact .advance
    · exact composed_unexpected _

theorem composed_expectSymbol (c : Char) : Composed Base (expectSymbol c) := composed_expect _

/-- A rule in brackets. The brackets are steps of their own, and what the rule gives is handed on
behind the second one. -/
theorem composed_between {rule : CompileM α} (hrule : Composed Base rule) (opening closing : Char) :
    Composed Base (between opening rule closing) := by
  apply Composed.bind (composed_expectSymbol opening)
  intro _
  apply Composed.bind hrule
  intro value
  exact .bind (composed_expectSymbol closing) fun _ => .pure value

/-- More items behind commas. The items that were found so far are left open in the induction,
because every round goes on with one more of them. -/
theorem composed_commaListFrom {item : CompileM α} (hitem : Composed Base item) (found : List α)
    (budget : Nat) : Composed Base (commaListFrom item found budget) := by
  induction budget generalizing found with
  | zero => exact .pure _
  | succ budget ih =>
    apply Composed.bind (composed_atSymbol ',')
    intro another
    split
    · apply Composed.bind .advance
      intro _
      exact .bind hitem fun value => ih (value :: found)
    · exact .pure _

/-- Items with commas in between, one at least. The first one is not asked for by a comma, so it
stands in front of the rounds. -/
theorem composed_commaList {item : CompileM α} (hitem : Composed Base item) (budget : Nat) :
    Composed Base (commaList item budget) :=
  .bind hitem fun value => composed_commaListFrom hitem [value] budget

/-- A repetition of a rule that a token leads to. The rule has to be composed only for what some
token stands for: nothing else ever starts it. -/
theorem composed_many {head : Token → Option α} {rule : α → CompileM Unit}
    (hrule : ∀ token found, head token = some found → Composed Base (rule found)) (budget : Nat) :
    Composed Base (many head rule budget) := by
  induction budget with
  | zero => exact .pure _
  | succ budget ih =>
    apply Composed.look
    · intro compiler other h
      simp only [h.current]
    · intro compiler
      split
      · rename_i found hfound
        obtain ⟨token, -, hhead⟩ := Option.bind_eq_some_iff.1 hfound
        exact .bind (hrule token found hhead) fun _ => ih
      · exact .pure _

/-- A name is looked at, passed over and handed on. -/
theorem composed_name : Composed Base name := by
  apply Composed.look
  · intro compiler other h
    simp only [h.current]
  · intro compiler
    split
    · exact .bind .advance fun _ => .pure _
    · exact composed_unexpected _

/-- A type is looked at, passed over and handed on. The name of a class is a type like the ones with
a keyword. -/
theorem composed_type : Composed Base type := by
  apply Composed.look
  · intro compiler other h
    simp only [h.current]
  · intro compiler
    split
    · exact .bind .advance fun _ => .pure _
    · exact composed_unexpected _

/-- Looking a name up reads the symbol table. That is why two states of one view have to have one
table, and why the complaint names the variable and no place. -/
theorem composed_lookup (name : String) : Composed Base (lookup name) := by
  apply Composed.look
  · intro compiler other h
    simp only [h.symbols]
  · intro compiler
    split
    · exact .pure _
    · exact .complain (.undeclaredName name)

/-! ## Emitting -/

/-- Several commands are emitted one by one. What makes each of them a step is left to the caller,
since labels are steps in statements only. -/
theorem composed_emitAll {commands : List Command}
    (hemit : ∀ command ∈ commands, Composed Base (emit command)) :
    Composed Base (emitAll commands) := by
  induction commands with
  | nil => exact .pure _
  | cons command rest ih =>
    apply Composed.bind (hemit command List.mem_cons_self)
    intro _
    exact ih fun other hmem => hemit other (List.mem_cons_of_mem _ hmem)

/-- Pushing is a command without a label, so it is a step over any base. -/
theorem composed_push (segment : Vm.Segment) (index : Int) : Composed Base (push segment index) :=
  .emit rfl

/-- Popping is a command without a label, so it is a step over any base. -/
theorem composed_pop (segment : Vm.Segment) (index : Int) : Composed Base (pop segment index) :=
  .emit rfl

/-- An operation is a command without a label, so it is a step over any base. -/
theorem composed_operation (op : Vm.Operation) : Composed Base (operation op) := .emit rfl

/-! ## Expressions -/

end

/-- No operator stands for a command with a label, not even those that are calls. So a chain of
terms is composed over any base. -/
theorem labelName?_of_binaryOperator? {token : Token} {command : Command}
    (hoperator : binaryOperator? token = some command) : command.labelName? = none := by
  unfold binaryOperator? at hoperator
  split at hoperator <;> cases hoperator <;> rfl

/-- A string is pushed character by character through calls, and no label is needed for that. -/
theorem labelName?_of_mem_stringCommands {content : String} {command : Command}
    (hmem : command ∈ stringCommands content) : command.labelName? = none := by
  rcases List.mem_cons.1 hmem with rfl | hmem
  · rfl
  rcases List.mem_cons.1 hmem with rfl | hmem
  · rfl
  obtain ⟨c, -, hmem⟩ := List.mem_flatMap.1 hmem
  rcases List.mem_pair.1 hmem with rfl | rfl <;> rfl

section

variable {Base : (α : Type) → CompileM α → Prop}

/-- A chain of terms is worked off from left to right: each operator waits for the term behind it,
and its command comes behind that of the term. -/
theorem composed_chain {term : CompileM Unit} (hterm : Composed Base term) (budget : Nat) :
    Composed Base (chain term budget) := by
  apply Composed.bind hterm
  intro _
  apply composed_many
  intro token command hoperator
  apply Composed.bind .advance
  intro _
  exact .bind hterm fun _ => .emit (labelName?_of_binaryOperator? hoperator)

/-- Arguments are a list of expressions or nothing at all, which the closing bracket tells. -/
theorem composed_arguments {expression : CompileM Unit} (hexpression : Composed Base expression)
    (budget : Nat) : Composed Base (arguments expression budget) := by
  apply Composed.bind (composed_atSymbol ')')
  intro none
  split
  · exact .pure _
  · exact .bind (composed_commaList hexpression budget) fun _ => .pure _

/-- Who is called. Behind a dot the table decides whether the name in front is an object or a class;
without one the class that is compiled has to be known. -/
theorem composed_callee (first : String) : Composed Base (callee first) := by
  apply Composed.bind (composed_atSymbol '.')
  intro dotted
  split
  · apply Composed.bind .advance
    intro _
    apply Composed.bind composed_name
    intro routine
    apply Composed.look
    · intro compiler other h
      simp only [h.symbols]
    · intro compiler
      split
      · exact .bind (composed_push _ _) fun _ => .pure _
      · exact .pure _
  · apply Composed.bind (composed_push _ _)
    intro _
    apply Composed.look
    · intro compiler other h
      simp only [h.className]
    · intro compiler
      exact .pure _

/-- A call behind its first name: the receiver, the arguments, and the command. It fails if the
arguments do not fit in the count of a call. -/
theorem composed_subroutineCall {expression : CompileM Unit}
    (hexpression : Composed Base expression) (budget : Nat) (first : String) :
    Composed Base (subroutineCall expression budget first) := by
  apply Composed.bind (composed_callee first)
  rintro ⟨callee, receivers⟩
  apply Composed.bind (composed_between (composed_arguments hexpression budget) '(' ')')
  intro count
  split
  · exact .emit rfl
  · exact .complain (.tooManyArguments callee)

/-- A term that begins with a name is a call, an element of an array or a variable. The token behind
the name tells which. -/
theorem composed_namedTerm {expression : CompileM Unit} (hexpression : Composed Base expression)
    (budget : Nat) (first : String) : Composed Base (namedTerm expression budget first) := by
  apply Composed.bind .advance
  intro _
  apply Composed.bind (composed_atSymbol '(')
  intro opened
  apply Composed.bind (composed_atSymbol '.')
  intro dotted
  split
  · exact composed_subroutineCall hexpression budget first
  apply Composed.bind (composed_atSymbol '[')
  intro indexed
  split
  · apply Composed.bind (composed_lookup first)
    intro symbol
    apply Composed.bind (composed_push _ _)
    intro _
    apply Composed.bind (composed_between hexpression '[' ']')
    intro _
    apply Composed.bind (composed_operation _)
    intro _
    exact .bind (composed_pop _ _) fun _ => composed_push _ _
  -- a name on its own is looked up last, when it can be nothing else
  · exact .bind (composed_lookup first) fun _ => composed_push _ _

/-- Terms, by induction on the budget: a term inside of another one has a smaller budget. The terms
inside brackets are whole expressions, which are chains of such terms. -/
theorem composed_term (budget : Nat) : Composed Base (term budget) := by
  induction budget with
  | zero => exact composed_unexpected _
  | succ budget ih =>
    have hexpression := composed_chain ih budget
    apply Composed.look
    · intro compiler other h
      simp only [h.current]
    · intro compiler
      -- one case for each way in which a term can begin, in the order of the rule
      split
      · exact .bind .advance fun _ => composed_push _ _
      · apply Composed.bind .advance
        intro _
        exact composed_emitAll fun _ hmem => .emit (labelName?_of_mem_stringCommands hmem)
      · exact .bind .advance fun _ => composed_push _ _
      · exact .bind .advance fun _ => composed_push _ _
      · exact .bind .advance fun _ => composed_push _ _
      · exact .bind .advance fun _ => composed_push _ _
      · exact composed_between hexpression '(' ')'
      · apply Composed.bind .advance
        intro _
        exact .bind ih fun _ => composed_operation _
      · apply Composed.bind .advance
        intro _
        exact .bind ih fun _ => composed_operation _
      · exact composed_namedTerm hexpression budget _
      · exact composed_unexpected _

/-- Expressions are composed over any base, so there is nothing special in them. That is what allows
an index to be deferred. -/
theorem composed_expression (budget : Nat) : Composed Base (expression budget) :=
  composed_chain (composed_term budget) budget

/-! ## Statements without labels -/

/-- A call as a statement. Its value is dropped. -/
theorem composed_invocation (budget : Nat) : Composed Base (invocation budget) := by
  apply Composed.bind .advance
  intro _
  apply Composed.bind composed_name
  intro first
  apply Composed.bind (composed_subroutineCall (composed_expression budget) budget first)
  intro _
  exact .bind (composed_expectSymbol ';') fun _ => composed_pop _ _

/-- A return gives back zero if there is no expression. -/
theorem composed_exit (budget : Nat) : Composed Base (exit budget) := by
  -- both ways end in the same two steps
  have hbehind : Composed Base (emit .ret >>= fun _ => expectSymbol ';') :=
    .bind (.emit rfl) fun _ => composed_expectSymbol ';'
  apply Composed.bind .advance
  intro _
  apply Composed.bind (composed_atSymbol ';')
  intro empty
  dsimp only
  split
  · exact .bind (composed_push _ _) fun _ => hbehind
  · exact .bind (composed_expression budget) fun _ => hbehind

/-! ## Declarations -/

/-- Variables are declared one at a time, and a name that is taken stops this in the middle. -/
theorem composed_defineAll (type : String) (kind : VarKind) (names : List String) :
    Composed Base (defineAll type kind names) := by
  induction names with
  | nil => exact .pure _
  | cons name rest ih => exact .bind (.define name type kind) fun _ => ih

/-- The variables of a declaration are declared behind the last name of the list, and only then
comes the semicolon. -/
theorem composed_varDeclaration (budget : Nat) (kind : VarKind) :
    Composed Base (varDeclaration budget kind) := by
  apply Composed.bind .advance
  intro _
  apply Composed.bind composed_type
  intro type
  apply Composed.bind (composed_commaList composed_name budget)
  intro names
  exact .bind (composed_defineAll type kind names) fun _ => composed_expectSymbol ';'

/-- Parameters are declared in order, each with a type of its own. -/
theorem composed_defineParameters (found : List (String × String)) :
    Composed Base (defineParameters found) := by
  induction found with
  | nil => exact .pure _
  | cons parameter rest ih => exact .bind (.define _ _ _) fun _ => ih

/-- All parameters are read before the first one of them is declared. -/
theorem composed_parameters (budget : Nat) : Composed Base (parameters budget) := by
  apply Composed.bind (composed_atSymbol ')')
  intro none
  split
  · exact .pure _
  · have hitem : Composed Base (do return (← type, ← name) : CompileM (String × String)) := by
      apply Composed.bind composed_type
      intro type
      exact .bind composed_name fun _ => .pure _
    apply Composed.bind (composed_commaList hitem budget)
    intro found
    exact composed_defineParameters found

/-- The type of a result is passed over. No command depends on it. -/
theorem composed_returnType : Composed Base returnType := by
  apply Composed.bind (composed_atKeyword .voidKw)
  intro void
  split
  · exact .advance
  · exact .bind composed_type fun _ => .pure _

/-! ## Around the statements -/

/-- The body of a subroutine, for any kind of statements. The commands in front of the statements
depend on the names and on the counts of the table. -/
theorem composed_subroutineBody {budget : Nat} (hstatements : Composed Base (statements budget))
    (kind : SubroutineKind) : Composed Base (subroutineBody budget kind) := by
  apply Composed.bind (composed_expectSymbol '{')
  intro _
  apply Composed.bind
  · exact composed_many (fun _ kind _ => composed_varDeclaration budget kind) budget
  intro _
  -- the two names and the table are looked at one after the other, with nothing in between
  apply Composed.look
  · intro compiler other h
    simp only [h.className]
  intro compiler
  apply Composed.look
  · intro compiler other h
    simp only [h.subroutineName]
  intro compiler
  apply Composed.look
  · intro compiler other h
    simp only [h.symbols]
  intro compiler
  apply Composed.bind (.note (by simp))
  intro _
  apply Composed.bind (.note (by simp))
  intro _
  apply Composed.bind (.emit rfl)
  intro _
  -- what the prologue is depends on the kind, but there is no label in any of them
  have hprologue : ∀ command ∈ prologue (compiler.symbols.count .field) kind,
      command.labelName? = none := by
    cases kind <;> simp [prologue, Command.labelName?]
  apply Composed.bind (composed_emitAll fun command hmem => .emit (hprologue command hmem))
  intro _
  exact .bind hstatements fun _ => composed_expectSymbol '}'

/-- A subroutine. For a method the object is declared in front of the parameters, under the name of
the class. -/
theorem composed_subroutine {budget : Nat} (hstatements : Composed Base (statements budget))
    (kind : SubroutineKind) : Composed Base (subroutine budget kind) := by
  -- what follows the name is one sequence for every kind, and a method only adds to its front
  have hbehind : Composed Base (between '(' (parameters budget) ')' >>= fun _ =>
      subroutineBody budget kind) :=
    .bind (composed_between (composed_parameters budget) '(' ')') fun _ =>
      composed_subroutineBody hstatements kind
  apply Composed.bind .advance
  intro _
  apply Composed.bind .startSubroutine
  intro _
  apply Composed.bind composed_returnType
  intro _
  apply Composed.bind composed_name
  intro subroutineName
  apply Composed.bind (.nameSubroutine subroutineName)
  intro _
  dsimp only
  split
  · apply Composed.look
    · intro compiler other h
      simp only [h.className]
    · intro compiler
      exact .bind (.define _ _ _) fun _ => hbehind
  · exact hbehind

/-- The class as a whole, for any kind of statements: everything that is special comes with them. -/
theorem composed_classDeclaration {budget : Nat} (hstatements : Composed Base (statements budget)) :
    Composed Base (classDeclaration budget) := by
  apply Composed.bind (composed_expect _)
  intro _
  apply Composed.bind composed_name
  intro className
  apply Composed.bind (.nameClass className)
  intro _
  apply Composed.bind (.note (by simp))
  intro _
  apply Composed.bind (composed_expectSymbol '{')
  intro _
  apply Composed.bind
  · exact composed_many (fun _ kind _ => composed_varDeclaration budget kind) budget
  intro _
  apply Composed.bind
  · exact composed_many (fun _ kind _ => composed_subroutine hstatements kind) budget
  intro _
  exact composed_expectSymbol '}'

/-! ## Runs -/

/-- A compilation takes its budget from what the lexer has left to read. The two on top of it are
for the rules around the tokens. -/
theorem compile_eq (compiler : Compiler) :
    compile compiler = compileWithin (compiler.lexer.budget + 2) compiler := rfl

/-- A compilation reads the first token before it begins. -/
theorem compileWithin_eq (budget : Nat) :
    compileWithin budget = advance >>= fun _ => classDeclaration budget >>= fun _ => finish := rfl

/-- At the end of the source the writer is closed; a token that is left is complained about
instead. -/
theorem composed_finish (hclose : Composed Base close) : Composed Base finish := by
  apply Composed.look
  · intro compiler other h
    simp only [h.current]
  · intro compiler
    dsimp only
    split
    · exact .bind (composed_unexpected _) fun _ => hclose
    · exact hclose

/-- A compilation is composed as soon as its statements and the closing of the writer are. -/
theorem composed_compileWithin {budget : Nat} (hstatements : Composed Base (statements budget))
    (hclose : Composed Base close) : Composed Base (compileWithin budget) := by
  apply Composed.bind .advance
  intro _
  exact .bind (composed_classDeclaration hstatements) fun _ => composed_finish hclose

end

/-! ## Statements -/

/-- The steps of statements that other rules do not take. -/
inductive Special : (α : Type) → CompileM α → Prop where
  | freshLabel : Special String freshLabel
  | emit (command : Command) : Special Unit (emit command)
  | defer {action : CompileM Unit} (haction : Composed (fun _ _ => False) action) :
      Special (List Command) (defer action)

/-- An assignment. To an element it needs the special steps: the index is put off until there is a
value, and its commands are emitted then, whichever they are. -/
theorem composed_assignment (budget : Nat) : Composed Special (assignment budget) := by
  apply Composed.bind .advance
  intro _
  apply Composed.bind composed_name
  intro target
  apply Composed.bind (composed_lookup target)
  intro symbol
  apply Composed.bind (composed_atSymbol '[')
  intro indexed
  split
  -- an element: the commands of the index come behind those of the value
  · apply Composed.bind (.base (.defer (composed_between (composed_expression budget) '[' ']')))
    intro index
    apply Composed.bind (composed_expectSymbol '=')
    intro _
    apply Composed.bind (composed_expression budget)
    intro _
    apply Composed.bind (composed_expectSymbol ';')
    intro _
    apply Composed.bind (composed_pop _ _)
    intro _
    apply Composed.bind (composed_push _ _)
    intro _
    apply Composed.bind (composed_emitAll fun command _ => .base (.emit command))
    intro _
    apply Composed.bind (composed_operation _)
    intro _
    apply Composed.bind (composed_pop _ _)
    intro _
    exact .bind (composed_push _ _) fun _ => composed_pop _ _
  · apply Composed.bind (composed_expectSymbol '=')
    intro _
    apply Composed.bind (composed_expression budget)
    intro _
    exact .bind (composed_expectSymbol ';') fun _ => composed_pop _ _

/-- A loop takes one number for both of its labels, and it takes it before its condition is read. -/
theorem composed_loop {block : CompileM Unit} (hblock : Composed Special block) (budget : Nat) :
    Composed Special (loop block budget) := by
  apply Composed.bind (.base .freshLabel)
  intro number
  apply Composed.bind .advance
  intro _
  apply Composed.bind (.base (.emit _))
  intro _
  apply Composed.bind (composed_between (composed_expression budget) '(' ')')
  intro _
  apply Composed.bind (composed_operation _)
  intro _
  apply Composed.bind (.emit rfl)
  intro _
  apply Composed.bind (composed_between hblock '{' '}')
  intro _
  exact .bind (.emit rfl) fun _ => .base (.emit _)

/-- A conditional takes one number for both of its labels. The second label is emitted with and
without another block, in different places. -/
theorem composed_conditional {block : CompileM Unit} (hblock : Composed Special block)
    (budget : Nat) : Composed Special (conditional block budget) := by
  apply Composed.bind (.base .freshLabel)
  intro number
  apply Composed.bind .advance
  intro _
  apply Composed.bind (.base (.emit _))
  intro _
  apply Composed.bind (composed_between (composed_expression budget) '(' ')')
  intro _
  apply Composed.bind (composed_operation _)
  intro _
  apply Composed.bind (.emit rfl)
  intro _
  apply Composed.bind (composed_between hblock '{' '}')
  intro _
  apply Composed.bind (.emit rfl)
  intro _
  apply Composed.bind (.base (.emit _))
  intro _
  apply Composed.bind (composed_atKeyword .elseKw)
  intro another
  split
  · apply Composed.bind .advance
    intro _
    exact .bind (composed_between hblock '{' '}') fun _ => .base (.emit _)
  · exact .base (.emit _)

/-- One statement, if the blocks in it are composed. -/
theorem composed_statement {block : CompileM Unit} (hblock : Composed Special block) (budget : Nat)
    (kind : StatementKind) : Composed Special (statement block budget kind) := by
  cases kind with
  | assignment => exact composed_assignment budget
  | conditional => exact composed_conditional hblock budget
  | loop => exact composed_loop hblock budget
  | invocation => exact composed_invocation budget
  | exit => exact composed_exit budget

/-- Statements, by induction on the budget: a block inside of a statement has a smaller one. -/
theorem composed_statements (budget : Nat) : Composed Special (statements budget) := by
  induction budget with
  | zero => exact composed_unexpected _
  | succ budget ih => exact composed_many (fun _ kind _ => composed_statement ih budget kind) budget

end Jack.Compiler
