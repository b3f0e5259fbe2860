/-
A class is compiled to the translation of its tree.

Declarations change the symbol table, and a subroutine begins by emptying one of
its tiers, so the walk over a class is described by more than the tokens ahead:
`Stage` says which scope the compiler knows, which commands have reached the sink
and how many numbers were taken. Inside a subroutine body the earlier `Reached`
does the work, and `Stage.after` carries its result over.

The theorem at the end joins the pieces for a whole source: if the tokens of a
text are those of a well-scoped class tree, the text is accepted and its output
is the translation of the tree, a command on each line.
-/
import Mathlib.Algebra.Order.BigOperators.Group.List
import Jack.Proofs.CompiledStatement
import Jack.Proofs.Indices

set_option autoImplicit false

namespace Jack

open Vm (Command)

namespace Compiler

open Syntax

/-! ## Stages of a compilation -/

/-- Where a compilation stands between two rules that are not deferred. -/
structure Stage (compiler : Compiler) (scope : Scope) (routine : String)
    (commands : List Command) (number : Nat) (rest : List Token) : Prop where
  ready : compiler.Ready scope
  routine_eq : compiler.subroutineName = routine
  output : compiler.writer.sink.bytes = (lines commands).toUTF8
  flushes : compiler.writer.sink.flushFails = false
  labels_eq : compiler.labels = number
  not_deferred : compiler.deferred = []
  ahead : compiler.Ahead rest

namespace Stage

variable {compiler reached : Compiler} {scope : Scope} {routine : String}
  {commands more : List Command} {number numbers : Nat} {rest tokens : List Token}

/-- A walk takes a stage to a stage. -/
theorem after (h : Stage compiler scope routine commands number rest)
    (hreached : Reached compiler more numbers tokens reached) :
    Stage reached scope routine (commands ++ more) (number + numbers) tokens := by
  have hstate := hreached.state
  rw [emitted, h.not_deferred] at hstate
  refine ⟨h.ready.after hreached, ?_, ?_, ?_, ?_, ?_, hreached.ahead⟩
  · rw [hstate]
    exact h.routine_eq
  · rw [hstate]
    simp [Vm.Writer.written, h.output, lines, String.join_append]
  · rw [hstate]
    exact h.flushes
  · rw [hreached.labels_eq, h.labels_eq]
  · rw [hstate]

/-- A walk that emits nothing. -/
theorem after_silent (h : Stage compiler scope routine commands number rest)
    (hreached : Reached compiler [] 0 tokens reached) :
    Stage reached scope routine commands number tokens := by
  simpa using h.after hreached

/-- Telling something about the run. -/
theorem note (h : Stage compiler scope routine commands number rest) (event : LogEvent) :
    ∃ reached, Compiler.note event compiler = .ok () reached ∧
      reached.symbols = compiler.symbols ∧
      Stage reached scope routine commands number rest := by
  obtain ⟨⟨hsymbols, hclass, hclosed, hcapacity⟩, hroutine, houtput, hflushes, hlabels, hdeferred,
    hahead⟩ := h
  obtain ⟨lexer, ⟨sink, closed, log⟩, symbols, current, className, subroutineName, labels,
    deferred⟩ := compiler
  refine ⟨⟨lexer, ⟨sink, closed, log.push event⟩, symbols, current, className, subroutineName,
    labels, deferred⟩, rfl, rfl, ⟨hsymbols, hclass, hclosed, hcapacity⟩, hroutine, houtput,
    hflushes, hlabels, hdeferred, ?_⟩
  cases rest <;> exact hahead

/-- Declaring a variable with a free name. -/
theorem define (h : Stage compiler scope routine commands number rest) {added : Variable}
    (hfree : scope.Free added) :
    ∃ reached, Compiler.define added.name added.type added.kind compiler = .ok () reached ∧
      Stage reached (scope.declare added) routine commands number rest := by
  obtain ⟨symbol, symbols, hdefine, hsymbols⟩ := h.ready.symbols.declare_ok hfree
  refine ⟨{ compiler with symbols }, ?_, ⟨hsymbols, ?_, ?_⟩, h.routine_eq, h.output, h.flushes,
    h.labels_eq, h.not_deferred, ?_⟩
  · rw [Compiler.define, hdefine]
  · rw [Scope.declare_className]
    exact h.ready.className_eq
  · exact h.ready.writer_open
  · have hahead := h.ahead
    cases rest <;> exact hahead

end Stage

/-! ## Lists and loops -/

/-- The loop over the items of a list, given what one round does to a property of
the items that are left. -/
theorem many_walk {α β : Type} {head : Token → Option α} {rule : α → CompileM Unit}
    (key : β → α) (property : List β → Compiler → Prop)
    (hstop : ∀ compiler, property [] compiler → compiler.current.bind head = none)
    (hstep : ∀ item rest compiler, property (item :: rest) compiler →
      compiler.current.bind head = some (key item) ∧
        ∃ reached, rule (key item) compiler = .ok () reached ∧ property rest reached)
    {items : List β} {rounds : Nat} (hrounds : items.length ≤ rounds) {compiler : Compiler}
    (hstart : property items compiler) :
    ∃ reached, many head rule rounds compiler = .ok () reached ∧ property [] reached := by
  induction items generalizing rounds compiler with
  | nil => exact ⟨compiler, many_stop (hstop compiler hstart) rounds, hstart⟩
  | cons item rest ih =>
    rw [List.length_cons] at hrounds
    obtain ⟨round, rfl⟩ : ∃ round, rounds = round + 1 := ⟨rounds - 1, by omega⟩
    have hround : rest.length ≤ round := by omega
    obtain ⟨hhead, middle, hrule, hmiddle⟩ := hstep item rest compiler hstart
    obtain ⟨reached, hrest, hreached⟩ := ih hround hmiddle
    exact ⟨reached, (many_step hhead hrule round).trans hrest, hreached⟩

/-- A list with commas, given how one item is read. -/
theorem commaListFrom_reached {α β : Type} {item : CompileM α} (value : β → α)
    (tokensOf : β → List Token)
    (hitem : ∀ (entry : β) (compiler : Compiler) (rest : List Token),
      compiler.Ahead (tokensOf entry ++ rest) → ∃ reached,
        item compiler = .ok (value entry) reached ∧ Reached compiler [] 0 rest reached)
    {entries : List β} {rounds : Nat} (hrounds : entries.length ≤ rounds) (found : List α)
    {compiler : Compiler} {rest : List Token} (hend : rest.head? ≠ some (.symbol ','))
    (hahead : compiler.Ahead (entries.flatMap (fun entry => .symbol ',' :: tokensOf entry) ++ rest)) :
    ∃ reached,
      commaListFrom item found rounds compiler = .ok (found.reverse ++ entries.map value) reached ∧
      Reached compiler [] 0 rest reached := by
  induction entries generalizing rounds found compiler with
  | nil =>
    refine ⟨compiler, ?_, .refl hahead⟩
    rw [List.map_nil, List.append_nil]
    refine commaListFrom_stop found ?_ rounds
    rw [hahead.current_eq]
    exact hend
  | cons entry others ih =>
    -- every entry takes a round
    rw [List.length_cons] at hrounds
    obtain ⟨round, rfl⟩ : ∃ round, rounds = round + 1 := ⟨rounds - 1, by omega⟩
    simp only [List.flatMap_cons, List.cons_append, List.append_assoc] at hahead
    obtain ⟨behindComma, hcomma, hwalkComma⟩ := advance_reached hahead
    obtain ⟨middle, hentry, hwalkEntry⟩ := hitem entry behindComma _ hwalkComma.ahead
    have hround : others.length ≤ round := by omega
    obtain ⟨reached, hothers, hwalkOthers⟩ :=
      ih hround (value entry :: found) hwalkEntry.ahead
    refine ⟨reached, ?_, (hwalkComma.trans hwalkEntry).trans hwalkOthers⟩
    rw [commaListFrom_step found hahead.1 hcomma hentry, hothers]
    simp

/-- A type. -/
theorem type_reached {compiler : Compiler} (named : TypeName) {rest : List Token}
    (hahead : compiler.Ahead (named.token :: rest)) :
    ∃ reached, type compiler = .ok named.text reached ∧ Reached compiler [] 0 rest reached := by
  obtain ⟨reached, hadvance, hreached⟩ := advance_reached hahead
  refine ⟨reached, ?_, hreached⟩
  have hname : typeName? named.token = some named.text := by cases named <;> rfl
  rw [type, look_bind, hahead.1, Option.bind_some, hname]
  exact bind_ok hadvance

/-! ## Declarations -/

section Declarations

variable {compiler : Compiler} {scope : Scope} {routine : String} {commands : List Command}
  {number budget : Nat} {rest : List Token}

theorem defineAll_stage (type : String) (kind : VarKind) (names : List String)
    (h : Stage compiler scope routine commands number rest)
    (hadmits : scope.Admits (names.map fun name => ⟨name, type, kind⟩)) :
    ∃ reached, defineAll type kind names compiler = .ok () reached ∧
      Stage reached (scope.declareAll (names.map fun name => ⟨name, type, kind⟩)) routine commands
        number rest := by
  induction names generalizing compiler scope with
  | nil => exact ⟨compiler, rfl, h⟩
  | cons name others ih =>
    obtain ⟨middle, hdefine, hmiddle⟩ := h.define hadmits.1
    obtain ⟨reached, hothers, hreached⟩ := ih hmiddle hadmits.2
    exact ⟨reached, (bind_ok hdefine).trans hothers, hreached⟩

/-- `type name, name, …;` -/
theorem declaration_stage (kind : VarKind) (declared : Declaration)
    (hbudget : declared.tokens.length ≤ budget)
    (h : Stage compiler scope routine commands number (declared.tokens ++ rest))
    (hadmits : scope.Admits (declared.vars kind)) :
    ∃ reached, declaration budget kind compiler = .ok () reached ∧
      Stage reached (scope.declareAll (declared.vars kind)) routine commands number rest := by
  have hahead := h.ahead
  -- a further name takes two tokens, so the budget bounds the names
  have hlength : (declared.others.flatMap fun name =>
      [Token.symbol ',', .identifier name]).length = declared.others.length * 2 := by simp
  simp only [Declaration.tokens, List.cons_append, List.append_assoc, List.length_cons,
    List.length_append, hlength, List.nil_append] at hahead hbudget
  have hothers : declared.others.length ≤ budget := by omega
  obtain ⟨typed, htype, hwalkType⟩ := type_reached declared.type hahead
  obtain ⟨named, hname, hwalkName⟩ := name_reached hwalkType.ahead
  obtain ⟨listed, hlist, hwalkList⟩ := commaListFrom_reached id (fun name => [.identifier name])
    (fun _ _ _ => name_reached) hothers [declared.first] (by simp) hwalkName.ahead
  have hnames : commaList name budget typed = .ok declared.names listed := by
    rw [commaList, bind_ok hname, hlist]
    simp [Declaration.names]
  obtain ⟨defined, hdefine, hdefined⟩ := defineAll_stage declared.type.text kind declared.names
    (h.after_silent ((hwalkType.trans hwalkName).trans hwalkList)) hadmits
  obtain ⟨reached, hsemicolon, hwalkSemicolon⟩ := expect_reached hdefined.ahead
  refine ⟨reached, ?_, hdefined.after_silent hwalkSemicolon⟩
  rw [declaration, bind_ok htype, bind_ok hnames, still_eq, bind_ok hdefine]
  exact hsemicolon

/-- A declaration behind the keyword for its kind. -/
theorem varDeclaration_stage (keyword : Keyword) (kind : VarKind) (declared : Declaration)
    (hbudget : declared.tokens.length ≤ budget)
    (h : Stage compiler scope routine commands number
      (.keyword keyword :: (declared.tokens ++ rest)))
    (hadmits : scope.Admits (declared.vars kind)) :
    ∃ reached, varDeclaration budget kind compiler = .ok () reached ∧
      Stage reached (scope.declareAll (declared.vars kind)) routine commands number rest := by
  obtain ⟨middle, hadvance, hwalk⟩ := advance_reached h.ahead
  obtain ⟨reached, hdeclare, hreached⟩ :=
    declaration_stage kind declared hbudget (h.after_silent hwalk) hadmits
  exact ⟨reached, (bind_ok hadvance).trans hdeclare, hreached⟩

/-- Declarations in a row, up to a token that begins none. The items are whatever
carries a declaration with the keyword and the kind it stands behind. -/
theorem varDeclarations_stage {β : Type} {head : Token → Option VarKind} (keyword : β → Keyword)
    (kind : β → VarKind) (declared : β → Declaration)
    (hhead : ∀ item, head (.keyword (keyword item)) = some (kind item)) (items : List β)
    (hbudget : (items.flatMap fun item =>
      .keyword (keyword item) :: (declared item).tokens).length ≤ budget)
    (hend : rest.head?.bind head = none)
    (h : Stage compiler scope routine commands number
      (items.flatMap (fun item => .keyword (keyword item) :: (declared item).tokens) ++ rest))
    (hadmits : scope.Admits (items.flatMap fun item => (declared item).vars (kind item))) :
    ∃ reached, many head (varDeclaration budget) budget compiler = .ok () reached ∧
      Stage reached (scope.declareAll (items.flatMap fun item => (declared item).vars (kind item)))
        routine commands number rest := by
  -- what is left to declare leads from the scope reached so far to the one at the end
  let property (left : List β) (current : Compiler) : Prop :=
    ∃ known : Scope,
      Stage current known routine commands number
        (left.flatMap (fun item => .keyword (keyword item) :: (declared item).tokens) ++ rest) ∧
      (left.flatMap fun item => .keyword (keyword item) :: (declared item).tokens).length ≤ budget ∧
      known.Admits (left.flatMap fun item => (declared item).vars (kind item)) ∧
      known.declareAll (left.flatMap fun item => (declared item).vars (kind item)) =
        scope.declareAll (items.flatMap fun item => (declared item).vars (kind item))
  have hstop : ∀ current, property [] current → current.current.bind head = none := by
    rintro current ⟨known, hstage, -⟩
    rw [hstage.ahead.current_eq]
    exact hend
  have hstep : ∀ item others current, property (item :: others) current →
      current.current.bind head = some (kind item) ∧
        ∃ reached, varDeclaration budget (kind item) current = .ok () reached ∧
          property others reached := by
    rintro item others current ⟨known, hstage, hlength, hknown, hfinal⟩
    rw [List.flatMap_cons, Scope.admits_append] at hknown
    rw [List.flatMap_cons, Scope.declareAll_append] at hfinal
    simp only [List.flatMap_cons, List.cons_append, List.append_assoc, List.length_cons,
      List.length_append] at hstage hlength
    have hitem : (declared item).tokens.length ≤ budget := by omega
    obtain ⟨reached, hrun, hreached⟩ :=
      varDeclaration_stage (keyword item) (kind item) (declared item) hitem hstage hknown.1
    refine ⟨?_, reached, hrun, _, hreached, by omega, hknown.2, hfinal⟩
    rw [hstage.ahead.1, Option.bind_some, hhead]
  have hrounds : items.length ≤ budget := by
    refine Nat.le_trans ?_ hbudget
    simp [List.length_flatMap]
  obtain ⟨reached, hrun, known, hstage, -, -, hfinal⟩ :=
    many_walk kind property hstop hstep hrounds ⟨scope, h, hbudget, hadmits, rfl⟩
  refine ⟨reached, hrun, ?_⟩
  rw [← hfinal]
  exact hstage

end Declarations

/-! ## Subroutines -/

section Subroutines

variable {compiler : Compiler} {scope : Scope} {routine : String} {commands : List Command}
  {number budget : Nat} {rest : List Token}

/-- Emptying the subroutine tier. -/
theorem Stage.enter (h : Stage compiler scope routine commands number rest) :
    Stage { compiler with symbols := compiler.symbols.startSubroutine } scope.enter routine
      commands number rest := by
  refine ⟨⟨h.ready.symbols.startSubroutine, h.ready.className_eq, h.ready.writer_open⟩,
    h.routine_eq, h.output, h.flushes, h.labels_eq, h.not_deferred, ?_⟩
  have hahead := h.ahead
  cases rest <;> exact hahead

/-- Noting the name of the subroutine. -/
theorem Stage.named (h : Stage compiler scope routine commands number rest) (name : String) :
    Stage { compiler with subroutineName := name } scope name commands number rest := by
  refine ⟨⟨h.ready.symbols, h.ready.className_eq, h.ready.writer_open⟩, rfl, h.output, h.flushes,
    h.labels_eq, h.not_deferred, ?_⟩
  have hahead := h.ahead
  cases rest <;> exact hahead

theorem returnType_reached (result : Option TypeName)
    (hahead : compiler.Ahead (resultToken result :: rest)) :
    ∃ reached, returnType compiler = .ok () reached ∧ Reached compiler [] 0 rest reached := by
  cases result with
  | none =>
    obtain ⟨reached, hadvance, hreached⟩ := advance_reached hahead
    refine ⟨reached, ?_, hreached⟩
    rw [returnType, atKeyword_bind, hahead.1, if_pos (by simp [resultToken]), move_eq, hadvance]
  | some named =>
    obtain ⟨reached, htype, hreached⟩ := type_reached named hahead
    refine ⟨reached, ?_, hreached⟩
    have hcurrent : compiler.current ≠ some (.keyword .voidKw) := by
      rw [hahead.1]
      cases named <;> simp [resultToken, TypeName.token]
    rw [returnType, atKeyword_bind, if_neg (by simpa using hcurrent)]
    exact bind_ok htype

theorem defineParameters_stage (list : List Parameter)
    (h : Stage compiler scope routine commands number rest)
    (hadmits : scope.Admits (list.map fun parameter =>
      ⟨parameter.name, parameter.type.text, .argument⟩)) :
    ∃ reached,
      defineParameters (list.map fun parameter => (parameter.type.text, parameter.name)) compiler =
        .ok () reached ∧
      Stage reached
        (scope.declareAll (list.map fun parameter =>
          ⟨parameter.name, parameter.type.text, .argument⟩)) routine commands number rest := by
  induction list generalizing compiler scope with
  | nil => exact ⟨compiler, rfl, h⟩
  | cons parameter others ih =>
    obtain ⟨middle, hdefine, hmiddle⟩ := h.define hadmits.1
    obtain ⟨reached, hothers, hreached⟩ := ih hmiddle hadmits.2
    exact ⟨reached, (bind_ok hdefine).trans hothers, hreached⟩

/-- One parameter. -/
theorem parameter_reached (parameter : Parameter) (compiler : Compiler) (rest : List Token)
    (hahead : compiler.Ahead (parameter.tokens ++ rest)) :
    ∃ reached,
      (do return (← type, ← name) : CompileM (String × String)) compiler =
        .ok (parameter.type.text, parameter.name) reached ∧
      Reached compiler [] 0 rest reached := by
  obtain ⟨typed, htype, hwalkType⟩ := type_reached parameter.type hahead
  obtain ⟨reached, hname, hwalkName⟩ := name_reached hwalkType.ahead
  exact ⟨reached, (bind_ok htype).trans (bind_ok hname), hwalkType.trans hwalkName⟩

/-- The parameters up to the parenthesis that closes them. -/
theorem parameters_stage (list : List Parameter) (budget : Nat)
    (hbudget : (Parameter.listTokens list).length ≤ budget)
    (h : Stage compiler scope routine commands number
      (Parameter.listTokens list ++ .symbol ')' :: rest))
    (hadmits : scope.Admits (list.map fun parameter =>
      ⟨parameter.name, parameter.type.text, .argument⟩)) :
    ∃ reached, parameters budget compiler = .ok () reached ∧
      Stage reached
        (scope.declareAll (list.map fun parameter =>
          ⟨parameter.name, parameter.type.text, .argument⟩)) routine commands number
        (.symbol ')' :: rest) := by
  cases list with
  | nil =>
    refine ⟨compiler, ?_, h⟩
    rw [parameters, atSymbol_bind, h.ahead.1, if_pos (by simp)]
    rfl
  | cons first others =>
    have hahead := h.ahead
    have hlength : (others.flatMap fun next => Token.symbol ',' :: next.tokens).length =
        others.length * 3 := by simp [Parameter.tokens]
    simp only [Parameter.listTokens, List.append_assoc, List.length_append, hlength]
      at hahead hbudget
    have hothers : others.length ≤ budget := by omega
    obtain ⟨middle, hfirst, hwalkFirst⟩ := parameter_reached first compiler _ hahead
    obtain ⟨listed, hlist, hwalkList⟩ := commaListFrom_reached
      (fun parameter : Parameter => (parameter.type.text, parameter.name)) Parameter.tokens
      parameter_reached hothers [(first.type.text, first.name)] (by simp) hwalkFirst.ahead
    obtain ⟨reached, hdefine, hreached⟩ := defineParameters_stage (first :: others)
      (h.after_silent (hwalkFirst.trans hwalkList)) hadmits
    refine ⟨reached, ?_, hreached⟩
    -- no type is a closing parenthesis
    have hcurrent : compiler.current ≠ some (.symbol ')') := by
      rw [hahead.current_eq]
      cases htype : first.type <;> simp [Parameter.tokens, TypeName.token, htype]
    rw [parameters, atSymbol_bind, if_neg (by simpa using hcurrent), commaList]
    exact (bind_ok ((bind_ok hfirst).trans hlist)).trans hdefine

/-- The variables of a subroutine that are locals. -/
theorem countP_vars_localVar (className : String) (sub : Subroutine) :
    (sub.vars className).countP (·.kind = .localVar) = sub.localCount := by
  have hthis : (if sub.kind = .method then [⟨"this", className, .argument⟩] else []).countP
      (fun added : Variable => added.kind = .localVar) = 0 := by
    split <;> rfl
  have hlocals : ∀ locals : List Declaration, (locals.flatMap (Declaration.vars .localVar)).countP
      (fun added => added.kind = .localVar) = (locals.flatMap Declaration.names).length := by
    intro locals
    induction locals with
    | nil => rfl
    | cons first others ih =>
      rw [List.flatMap_cons, List.countP_append, ih, List.flatMap_cons, List.length_append]
      simp [Declaration.vars, Function.comp_def]
  rw [Subroutine.vars, List.countP_append, List.countP_append, hthis, hlocals, Subroutine.localCount]
  simp [Function.comp_def]

/-- `{locals body}`, from the parameters on. -/
theorem subroutineBody_stage (tree : ClassTree) (sub : Subroutine) (budget : Nat)
    (hbudget : (sub.locals.flatMap (fun declared => .keyword .varKw :: declared.tokens) ++
      sub.body.tokens).length < budget)
    (h : Stage compiler scope sub.name commands number
      (.symbol '{' :: (sub.locals.flatMap (fun declared => .keyword .varKw :: declared.tokens) ++
        (sub.body.tokens ++ .symbol '}' :: rest))))
    (hadmits : scope.Admits (sub.locals.flatMap (Declaration.vars .localVar)))
    (hscope : scope.declareAll (sub.locals.flatMap (Declaration.vars .localVar)) = tree.scope sub)
    (hscoped : sub.body.Scoped (tree.scope sub)) :
    ∃ reached, subroutineBody budget sub.kind compiler = .ok () reached ∧
      Stage reached (tree.scope sub) sub.name (commands ++ tree.subroutineCode number sub)
        (number + sub.body.labels) rest := by
  rw [List.length_append] at hbudget
  have hlocalTokens : (sub.locals.flatMap fun declared =>
      Token.keyword .varKw :: declared.tokens).length ≤ budget := by omega
  obtain ⟨opened, hopen, hwalkOpen⟩ := expect_reached h.ahead
  -- what stands behind the locals begins no further declaration
  have hend : (sub.body.tokens ++ .symbol '}' :: rest).head?.bind bodyVarKind? = none := by
    cases hbody : sub.body with
    | nil => rfl
    | cons first others =>
      obtain ⟨keyword, tail, htokens, -, hkind⟩ := first.exists_tokens_eq
      simp only [Block.tokens, htokens, List.cons_append, List.head?_cons, Option.bind_some]
      cases keyword <;> first | rfl | cases hkind
  obtain ⟨declared, hdeclare, hdeclared⟩ := varDeclarations_stage (fun _ : Declaration => .varKw)
    (fun _ => .localVar) id (fun _ => rfl) sub.locals hlocalTokens hend
    (h.after_silent hwalkOpen) hadmits
  have hdeclared : Stage declared (tree.scope sub) sub.name commands number _ := hscope ▸ hdeclared
  -- the counters of the table show the numbers in the tree
  have hlocals : (declared.symbols.count .localVar).toNat = counted sub.localCount := by
    rw [hdeclared.ready.symbols.count, ← countP_vars_localVar tree.name, ← countP_numbered]
    rfl
  have hfields : (declared.symbols.count .field).toNat = counted tree.fieldCount := by
    rw [hdeclared.ready.symbols.count, ClassTree.fieldCount, ← countP_numbered]
    rfl
  have hname : declared.className ++ "." ++ declared.subroutineName = tree.name ++ "." ++ sub.name := by
    rw [hdeclared.ready.className_eq, hdeclared.routine_eq]
    rfl
  -- two entries of the log, the `function` command, the entry and the body
  obtain ⟨told, htell, -, htold⟩ := hdeclared.note
    (.compilingSubroutine sub.kind.keyword.text (tree.name ++ "." ++ sub.name)
      (counted sub.localCount))
  obtain ⟨listed, hlist, -, hlisted⟩ := htold.note
    (.symbolsOf (tree.name ++ "." ++ sub.name) declared.symbols)
  obtain ⟨framed, hframe, hwalkFrame⟩ := emit_reached hlisted.ready.writer_open hlisted.ahead
    (.function (tree.name ++ "." ++ sub.name) (counted sub.localCount))
  have hframed := hlisted.after hwalkFrame
  obtain ⟨entered, henter, hwalkEnter⟩ := emitAll_reached hframed.ready.writer_open hframed.ahead
    (prologue (counted tree.fieldCount) sub.kind)
  have hentered := hframed.after hwalkEnter
  obtain ⟨done, hbody, hwalkBody⟩ := block_reached sub.body budget hentered.ready hscoped
    (by omega) hentered.ahead
  obtain ⟨reached, hclose, hwalkClose⟩ := expect_reached hwalkBody.ahead
  refine ⟨reached, ?_, ?_⟩
  · rw [subroutineBody, expectSymbol, bind_ok hopen, bind_ok hdeclare, look_bind, look_bind, look_bind,
      hname, hlocals, hfields, still_eq, bind_ok htell, still_eq, bind_ok hlist]
    refine (bind_ok hframe).trans ?_
    rw [still_eq, bind_ok henter, bind_ok hbody]
    exact hclose
  · have hfinal := (hentered.after hwalkBody).after hwalkClose
    rw [hentered.labels_eq] at hfinal
    have hentry : prologue (counted tree.fieldCount) sub.kind =
        entryCode (counted tree.fieldCount) sub.kind := by
      cases sub.kind <;> rfl
    rw [hentry] at hfinal
    simpa [ClassTree.subroutineCode] using hfinal

/-- A rule between two symbols that may declare variables. -/
theorem Stage.between {α : Type} {opening closing : Char} {rule : CompileM α} {value : α}
    {final : Scope} {inner : List Token}
    (h : Stage compiler scope routine commands number (.symbol opening :: inner))
    (hrule : ∀ inside, Stage inside scope routine commands number inner → ∃ behind,
      rule inside = .ok value behind ∧
        Stage behind final routine commands number (.symbol closing :: rest)) :
    ∃ reached, Compiler.between opening rule closing compiler = .ok value reached ∧
      Stage reached final routine commands number rest := by
  obtain ⟨inside, hopening, hwalkOpening⟩ := expect_reached h.ahead
  obtain ⟨behind, hrun, hbehind⟩ := hrule inside (h.after_silent hwalkOpening)
  obtain ⟨reached, hclosing, hwalkClosing⟩ := expect_reached hbehind.ahead
  refine ⟨reached, ?_, hbehind.after_silent hwalkClosing⟩
  rw [Compiler.between, expectSymbol, bind_ok hopening, bind_ok hrun, expectSymbol,
    bind_ok hclosing]
  rfl

/-- The object that a method is called on is its first argument. -/
theorem receiver_stage (kind : SubroutineKind)
    (h : Stage compiler scope routine commands number rest)
    (hadmits : scope.Admits
      (if kind = .method then [⟨"this", scope.className, .argument⟩] else [])) :
    ∃ reached,
      (if kind = .method then define "this" compiler.className .argument else pure () :
        CompileM Unit) compiler = .ok () reached ∧
      Stage reached
        (scope.declareAll (if kind = .method then [⟨"this", scope.className, .argument⟩] else []))
        routine commands number rest := by
  by_cases hkind : kind = .method
  · rw [if_pos hkind] at hadmits
    rw [if_pos hkind, if_pos hkind, h.ready.className_eq]
    exact h.define hadmits.1
  · rw [if_neg hkind, if_neg hkind]
    exact ⟨compiler, rfl, h⟩

/-- A subroutine, from any scope of its class. -/
theorem subroutine_stage (tree : ClassTree) (sub : Subroutine)
    (hbudget : sub.tokens.length ≤ budget) (hdistinct : DistinctNames (sub.vars tree.name))
    (hscoped : sub.body.Scoped (tree.scope sub)) (hscope : scope.enter = tree.classScope)
    (h : Stage compiler scope routine commands number (sub.tokens ++ rest)) :
    ∃ reached, subroutine budget sub.kind compiler = .ok () reached ∧
      Stage reached (tree.scope sub) sub.name (commands ++ tree.subroutineCode number sub)
        (number + sub.body.labels) rest := by
  have hadmits := (tree.admits_subroutine_vars_iff sub).2 hdistinct
  have hfinal := tree.declareAll_subroutine_vars sub hscope
  rw [hscope] at hfinal
  -- the receiver, the parameters and the locals are declared one after the other
  rw [Subroutine.vars, Scope.admits_append, Scope.admits_append, Scope.declareAll_append] at hadmits
  rw [Subroutine.vars, Scope.declareAll_append, Scope.declareAll_append] at hfinal
  obtain ⟨⟨hadmitsThis, hadmitsParameters⟩, hadmitsLocals⟩ := hadmits
  simp only [Subroutine.tokens, List.length_cons, List.length_append] at hbudget
  simp only [Subroutine.tokens, List.cons_append, List.append_assoc, List.nil_append] at h
  obtain ⟨moved, hmove, hwalkMove⟩ := advance_reached h.ahead
  have hmoved := (h.after_silent hwalkMove).enter
  rw [hscope] at hmoved
  obtain ⟨typed, htype, hwalkType⟩ := returnType_reached sub.result hmoved.ahead
  obtain ⟨found, hname, hwalkName⟩ := name_reached hwalkType.ahead
  have hnamed := (hmoved.after_silent (hwalkType.trans hwalkName)).named sub.name
  obtain ⟨received, hreceive, hreceived⟩ := receiver_stage sub.kind hnamed hadmitsThis
  obtain ⟨listed, hlist, hlisted⟩ := hreceived.between fun inside hinside =>
    parameters_stage sub.parameters budget (by omega) hinside hadmitsParameters
  obtain ⟨reached, hbody, hreached⟩ := subroutineBody_stage tree sub budget
    (by rw [List.length_append]; omega) hlisted hadmitsLocals hfinal hscoped
  refine ⟨reached, ?_, hreached⟩
  rw [subroutine, move_eq, bind_ok hmove, still_eq, startSubroutine, modify_bind, bind_ok htype,
    bind_ok hname, still_eq, nameSubroutine, modify_bind]
  by_cases hkind : sub.kind = .method
  · rw [if_pos hkind] at hreceive
    rw [if_pos hkind, look_bind, still_eq, bind_ok hreceive]
    exact (bind_ok hlist).trans hbody
  · rw [if_neg hkind, pure_apply] at hreceive
    cases hreceive
    rw [if_neg hkind]
    exact (bind_ok hlist).trans hbody

end Subroutines

/-! ## The class -/

section Class

variable {compiler : Compiler} {scope : Scope} {routine : String} {commands : List Command}
  {number budget : Nat} {rest : List Token}

/-- Subroutines in a row, up to a token that begins none. -/
theorem subroutines_stage (tree : ClassTree) (list : List Subroutine)
    (hdistinct : ∀ sub ∈ list, DistinctNames (sub.vars tree.name))
    (hscoped : ∀ sub ∈ list, sub.body.Scoped (tree.scope sub))
    (hbudget : (list.flatMap Subroutine.tokens).length ≤ budget)
    (hscope : scope.enter = tree.classScope)
    (h : Stage compiler scope routine commands number
      (list.flatMap Subroutine.tokens ++ .symbol '}' :: rest)) :
    ∃ reached known last numbers,
      many subroutineKind? (subroutine budget) budget compiler = .ok () reached ∧
      Stage reached known last (commands ++ tree.codeFrom number list) numbers
        (.symbol '}' :: rest) := by
  -- what is left to compile leads from the commands so far to those of the whole row
  let property (left : List Subroutine) (current : Compiler) : Prop :=
    ∃ (known : Scope) (last : String) (emitted : List Command) (numbers : Nat),
      Stage current known last emitted numbers
        (left.flatMap Subroutine.tokens ++ .symbol '}' :: rest) ∧
      known.enter = tree.classScope ∧
      (∀ sub ∈ left, sub ∈ list) ∧
      (left.flatMap Subroutine.tokens).length ≤ budget ∧
      emitted ++ tree.codeFrom numbers left = commands ++ tree.codeFrom number list
  have hstop : ∀ current, property [] current → current.current.bind subroutineKind? = none := by
    rintro current ⟨known, last, emitted, numbers, hstage, -⟩
    rw [hstage.ahead.1]
    rfl
  have hstep : ∀ sub others current, property (sub :: others) current →
      current.current.bind subroutineKind? = some sub.kind ∧
        ∃ reached, subroutine budget sub.kind current = .ok () reached ∧
          property others reached := by
    rintro sub others current ⟨known, last, emitted, numbers, hstage, hknown, hmem, hlength, hcode⟩
    obtain ⟨hsub, hothers⟩ := List.forall_mem_cons.1 hmem
    rw [List.flatMap_cons, List.length_append] at hlength
    rw [List.flatMap_cons, List.append_assoc] at hstage
    have hfits : sub.tokens.length ≤ budget := by omega
    obtain ⟨reached, hrun, hreached⟩ := subroutine_stage tree sub hfits (hdistinct sub hsub)
      (hscoped sub hsub) hknown hstage
    refine ⟨?_, reached, hrun, _, _, _, _, hreached, rfl, hothers, by omega, ?_⟩
    · rw [hstage.ahead.1, Option.bind_some]
      cases sub.kind <;> rfl
    · rw [← hcode, ClassTree.codeFrom, List.append_assoc]
  have hrounds : list.length ≤ budget := by
    refine Nat.le_trans ?_ hbudget
    simp [List.length_flatMap, Subroutine.tokens]
  obtain ⟨reached, hrun, known, last, emitted, numbers, hstage, -, -, -, hcode⟩ :=
    many_walk Subroutine.kind property hstop hstep hrounds
      ⟨scope, routine, commands, number, h, hscope, fun _ => id, hbudget, rfl⟩
  refine ⟨reached, known, last, numbers, hrun, ?_⟩
  rw [← hcode, ClassTree.codeFrom, List.append_nil]
  exact hstage

/-- Noting the name of the class, before anything is declared. -/
theorem Stage.classNamed {className : String}
    (h : Stage compiler ⟨className, [], []⟩ routine commands number rest) (name : String) :
    Stage { compiler with className := name } ⟨name, [], []⟩ routine commands number rest := by
  refine ⟨⟨⟨h.ready.symbols.find, h.ready.symbols.count⟩, rfl, h.ready.writer_open⟩, h.routine_eq,
    h.output, h.flushes, h.labels_eq, h.not_deferred, ?_⟩
  have hahead := h.ahead
  cases rest <;> exact hahead

/-- A class. -/
theorem classDeclaration_stage (tree : ClassTree) {className : String}
    (hscoped : tree.WellScoped) (hbudget : tree.tokens.length ≤ budget)
    (h : Stage compiler ⟨className, [], []⟩ routine [] 0 (tree.tokens ++ rest)) :
    ∃ reached known last numbers,
      classDeclaration budget compiler = .ok () reached ∧
      Stage reached known last tree.code numbers rest := by
  simp only [ClassTree.tokens, List.length_cons, List.length_append] at hbudget
  simp only [ClassTree.tokens, List.cons_append, List.append_assoc, List.nil_append] at h
  obtain ⟨moved, hmove, hwalkMove⟩ := expect_reached h.ahead
  obtain ⟨found, hname, hwalkName⟩ := name_reached hwalkMove.ahead
  have hnamed := (h.after_silent (hwalkMove.trans hwalkName)).classNamed tree.name
  obtain ⟨told, htell, -, htold⟩ := hnamed.note (.compilingClass tree.name)
  obtain ⟨opened, hopen, hwalkOpen⟩ := expect_reached htold.ahead
  -- what stands behind the variables of the class begins no further declaration
  have hend : (tree.subroutines.flatMap Subroutine.tokens ++ .symbol '}' :: rest).head?.bind
      classVarKind? = none := by
    cases tree.subroutines with
    | nil => rfl
    | cons sub others =>
      simp only [List.flatMap_cons, Subroutine.tokens, List.cons_append, List.head?_cons,
        Option.bind_some]
      cases sub.kind <;> rfl
  have hdeclarations :
      (tree.declarations.flatMap ClassVarDeclaration.tokens).length ≤ budget := by omega
  have hsubroutines : (tree.subroutines.flatMap Subroutine.tokens).length ≤ budget := by omega
  obtain ⟨declared, hdeclare, hdeclared⟩ := varDeclarations_stage
    (fun item : ClassVarDeclaration => item.kind.keyword) (fun item => item.kind.varKind)
    ClassVarDeclaration.declaration (fun item => by cases item.kind <;> rfl) tree.declarations
    hdeclarations hend (htold.after_silent hwalkOpen) (tree.admits_vars_iff.2 hscoped.distinct)
  have hscope : ((Scope.mk tree.name [] []).declareAll tree.vars).enter = tree.classScope := by
    rw [tree.declareAll_vars]
    rfl
  obtain ⟨listed, known, last, numbers, hlist, hlisted⟩ := subroutines_stage tree tree.subroutines
    hscoped.distinct_in hscoped.body_scoped hsubroutines hscope hdeclared
  obtain ⟨reached, hclose, hwalkClose⟩ := expect_reached hlisted.ahead
  refine ⟨reached, known, last, numbers, ?_, hlisted.after_silent hwalkClose⟩
  rw [classDeclaration, bind_ok hmove, bind_ok hname, still_eq, nameClass, modify_bind, still_eq,
    bind_ok htell, expectSymbol, bind_ok hopen, bind_ok hdeclare, bind_ok hlist]
  exact hclose

/-- Closing the writer at the end. -/
theorem Stage.close (h : Stage compiler scope routine commands number rest) :
    ∃ reached, Compiler.close compiler = .ok () reached ∧
      reached.writer.sink.bytes = (lines commands).toUTF8 := by
  obtain ⟨⟨-, -, hclosed, hcapacity⟩, -, houtput, hflushes, -⟩ := h
  obtain ⟨lexer, ⟨⟨bytes, capacity, flushFails, flushes⟩, closed, log⟩, symbols, current,
    className, subroutineName, labels, deferred⟩ := compiler
  obtain ⟨rfl, rfl⟩ := And.intro hclosed hflushes
  exact ⟨_, rfl, houtput⟩

/-- A compiler at the beginning of a source that holds the tokens of a class. -/
theorem start_stage {lexer : Lexer} {tokens : List Token} (hyields : lexer.Yields tokens) :
    ∃ reached, advance (start lexer {}) = .ok () reached ∧
      Stage reached ⟨"", [], []⟩ "" [] 0 tokens := by
  have hstart : (start lexer {}).lexer.Yields tokens := hyields
  obtain ⟨reached, hadvance, hwalk⟩ := advance_of_yields hstart
  have hready : (start lexer {}).Ready ⟨"", [], []⟩ := ⟨.empty "", rfl, rfl, rfl⟩
  have hstate : reached = { start lexer {} with lexer := reached.lexer, current := reached.current } :=
    hwalk.state
  refine ⟨reached, hadvance, hready.after hwalk, ?_, ?_, ?_, ?_, ?_, hwalk.ahead⟩ <;> rw [hstate] <;>
    rfl

/-- The whole source of a class. -/
theorem compile_stage (tree : ClassTree) {lexer : Lexer} (hscoped : tree.WellScoped)
    (hyields : lexer.Yields tree.tokens) :
    ∃ reached, compile (start lexer {}) = .ok () reached ∧
      reached.writer.sink.bytes = (lines tree.code).toUTF8 := by
  have hbudget : tree.tokens.length ≤ lexer.budget + 2 :=
    Nat.le_trans hyields.length_le_budget (Nat.le_add_right _ 2)
  obtain ⟨moved, hmove, hmoved⟩ := start_stage hyields
  rw [← List.append_nil tree.tokens] at hmoved
  obtain ⟨finished, known, last, numbers, hclass, hfinished⟩ :=
    classDeclaration_stage tree hscoped hbudget hmoved
  obtain ⟨reached, hclose, hbytes⟩ := hfinished.close
  refine ⟨reached, ?_, hbytes⟩
  have hend : finished.current.isSome = false := by
    rw [hfinished.ahead.current_eq]
    rfl
  have hbound : (start lexer {}).lexer.budget + 2 = lexer.budget + 2 := rfl
  rw [compile, get_bind, hbound, compileWithin, move_eq, bind_ok hmove, bind_ok hclass, finish,
    look_bind, hend, if_neg (by simp)]
  exact hclose

end Class

end Compiler

open Syntax (ClassTree lines)

/-- Text that was written is read back as it is. -/
theorem Vm.Sink.text_of_bytes {sink : Vm.Sink} {written : String}
    (hbytes : sink.bytes = written.toUTF8) : sink.text = written := by
  have hvalid : String.fromUTF8? written.toUTF8 = some written := by
    rw [String.fromUTF8?]
    split
    · rfl
    · next hinvalid => exact absurd written.isValidUTF8 hinvalid
  rw [Vm.Sink.text, hbytes, hvalid]

/-- A source that holds the tokens of a well-scoped class, as lines. -/
theorem compileSource_of_yields (tree : ClassTree) {source : Source} (hscoped : tree.WellScoped)
    (hyields : Lexer.Yields { lines := source } tree.tokens) :
    compileSource source = .ok (lines tree.code) := by
  obtain ⟨reached, hcompile, hbytes⟩ := Compiler.compile_stage tree hscoped hyields
  rw [compileSource, Compiler.run, hcompile]
  exact congrArg Except.ok (Vm.Sink.text_of_bytes hbytes)

/-- **The compiler refines the translation.** A source whose tokens are those of a
well-scoped class tree is accepted, and its output is the translation of the tree,
one command on each line. -/
theorem compileText_eq_translation (tree : ClassTree) (source : String)
    (hscoped : tree.WellScoped) (htokens : HasTokens source tree.tokens) :
    compileText source = .ok (lines tree.code) :=
  compileSource_of_yields tree hscoped (Lexer.yields_iff_results.2 htokens)

/-- A method with a conditional, a field that its name stands for and a call of a
class that is not a variable. -/
theorem compileText_translation_of_method :
    compileText "class A {
      field int x;
      method int f(int y) {
        if (x < y) { let x = A.g(y); } // grow
        return x;
      }
    }" = .ok (lines
      [.function "A.f" 0, .push .argument 0, .pop .pointer 0, .label "IF_START_0", .push .this 0,
        .push .argument 1, .operation .lt, .operation .not, .ifGoto "ELSE_0", .push .argument 1,
        .call "A.g" 1, .pop .this 0, .goto "IF_END_0", .label "ELSE_0", .label "IF_END_0",
        .push .this 0, .ret]) := by
  refine (compileText_eq_translation
    ⟨"A", [⟨.field, ⟨.int, "x", []⟩⟩],
      [⟨.method, some .int, "f", [⟨.int, "y"⟩], [],
        .cons (.ifThen (.chain (.var "x") (.cons .lt (.var "y") .nil))
          (.cons (.assign "x"
            (.chain (.call (.dotted "A" "g" (.cons (.chain (.var "y") .nil) .nil))) .nil)) .nil))
          (.cons (.exit (some (.chain (.var "x") .nil))) .nil)⟩]⟩ _ ?_ ?_).trans ?_
  · decide
  · exact .of_pulled 39 (by decide +kernel)
  · exact congrArg (fun commands => Except.ok (lines commands)) (by decide)

end Jack
