/-
What the compiler accepts is the source of a well-scoped class.

Declarations change what the names mean, so the way back over them carries a
scope along: `Passed` says which tokens a run moved over and which scope the
compiler knows at its end. That a variable was declared says that its name was
free, and from this every tier turns out to have distinct names.

Together with the walk along a tree this makes the compiler exactly the
translation: a source is accepted if and only if its tokens are those of a
well-scoped class tree, and there is only one such tree.
-/
import Jack.Proofs.AcceptedBody
import Jack.Proofs.CompiledClass
import Jack.Proofs.Unambiguous

set_option autoImplicit false

namespace Jack

namespace Compiler

open Syntax
open Vm (Command)

/-! ## The way back over declarations -/

/-- A compiler that knows the variables of a scope. -/
structure Knows (compiler : Compiler) (scope : Scope) : Prop where
  symbols : compiler.symbols.Represents scope
  className_eq : compiler.className = scope.className

/-- The way back of a run that may have declared variables: the tokens it moved over,
and the scope that is known at its end. -/
structure Passed (compiler : Compiler) (tokens : List Token) (reached : Compiler)
    (final : Scope) : Prop where
  ahead : ∀ rest, reached.Ahead rest → compiler.Ahead (tokens ++ rest)
  knows : reached.Knows final

/-- A run that changes no names. -/
theorem Consumed.passed {compiler reached : Compiler} {tokens : List Token} {scope : Scope}
    (h : Consumed compiler tokens reached) (hknows : compiler.Knows scope) :
    Passed compiler tokens reached scope where
  ahead := h.ahead
  knows := ⟨h.represents hknows.symbols, h.className_eq.trans hknows.className_eq⟩

theorem Passed.trans {compiler middle reached : Compiler} {first rest : List Token}
    {scope final : Scope} (h : Passed compiler first middle scope)
    (h' : Passed middle rest reached final) : Passed compiler (first ++ rest) reached final where
  ahead tokens hahead := by
    rw [List.append_assoc]
    exact h.ahead _ (h'.ahead _ hahead)
  knows := h'.knows

section Declarations

variable {compiler reached : Compiler} {scope : Scope} {budget : Nat}

theorem define_passed (added : Variable) (hknows : compiler.Knows scope)
    (hrun : define added.name added.type added.kind compiler = .ok () reached) :
    scope.Free added ∧ Passed compiler [] reached (scope.declare added) := by
  unfold define at hrun
  split at hrun
  · next symbol symbols hdefine =>
    cases hrun
    obtain ⟨hfree, hsymbols⟩ := hknows.symbols.of_declare_ok hdefine
    refine ⟨hfree, ?_, hsymbols, ?_⟩
    · intro rest hahead
      cases rest <;> exact hahead
    · rw [Scope.declare_className]
      exact hknows.className_eq
  · cases hrun

/-- Declares variables in order. -/
def defineEach : List Variable → CompileM Unit
  | [] => return
  | first :: rest => do
    define first.name first.type first.kind
    defineEach rest

theorem defineAll_eq (type : String) (kind : VarKind) (names : List String) :
    defineAll type kind names = defineEach (names.map fun name => ⟨name, type, kind⟩) := by
  induction names with
  | nil => rfl
  | cons name rest ih =>
    rw [defineAll, ih]
    rfl

/-- The variables that some parameters declare. -/
def parameterVars (list : List Parameter) : List Variable :=
  list.map fun parameter => ⟨parameter.name, parameter.type.text, .argument⟩

theorem defineParameters_eq (list : List Parameter) :
    defineParameters (list.map fun parameter => (parameter.type.text, parameter.name)) =
      defineEach (parameterVars list) := by
  induction list with
  | nil => rfl
  | cons parameter rest ih =>
    rw [List.map_cons, defineParameters, ih]
    rfl

theorem defineEach_passed {vars : List Variable} (hknows : compiler.Knows scope)
    (hrun : defineEach vars compiler = .ok () reached) :
    scope.Admits vars ∧ Passed compiler [] reached (scope.declareAll vars) := by
  induction vars generalizing compiler scope with
  | nil =>
    cases hrun
    exact ⟨trivial, (Consumed.refl _).passed hknows⟩
  | cons first others ih =>
    obtain ⟨_, middle, hdefine, hothers⟩ := bind_ok_iff.1 hrun
    obtain ⟨hfree, hpassed⟩ := define_passed first hknows hdefine
    obtain ⟨hadmits, hrest⟩ := ih hpassed.knows hothers
    exact ⟨⟨hfree, hadmits⟩, hpassed.trans hrest⟩

theorem type_consumed {text : String} (hrun : type compiler = .ok text reached) :
    ∃ named : TypeName, text = named.text ∧ Consumed compiler [named.token] reached := by
  obtain ⟨action, haction, hrun⟩ := get_bind_ok hrun
  split at haction <;> subst haction
  · next found hfound =>
    obtain ⟨_, middle, hadvance, hpure⟩ := bind_ok_iff.1 hrun
    cases hpure
    obtain ⟨token, hcurrent, hname⟩ := Option.bind_eq_some_iff.1 hfound
    have hread := advance_consumed hcurrent hadvance
    unfold typeName? at hname
    split at hname <;> cases hname
    · exact ⟨.int, rfl, hread⟩
    · exact ⟨.char, rfl, hread⟩
    · exact ⟨.boolean, rfl, hread⟩
    · exact ⟨.named _, rfl, hread⟩
  · exact absurd hrun unexpected_ne_ok

/-- A list with commas, given how one item is read. -/
theorem commaListFrom_consumed {α β : Type} {item : CompileM α} (value : β → α)
    (tokensOf : β → List Token)
    (hitem : ∀ compiler reached found, item compiler = .ok found reached →
      ∃ entry : β, found = value entry ∧ Consumed compiler (tokensOf entry) reached)
    {rounds : Nat} {found items : List α} {compiler reached : Compiler}
    (hrun : commaListFrom item found rounds compiler = .ok items reached) :
    ∃ entries : List β, items = found.reverse ++ entries.map value ∧
      Consumed compiler (entries.flatMap fun entry => .symbol ',' :: tokensOf entry) reached := by
  induction rounds generalizing found compiler with
  | zero =>
    cases hrun
    exact ⟨[], by simp, .refl _⟩
  | succ _ ih =>
    rcases commaListFrom_ok_cases hrun with
      ⟨rfl, rfl⟩ | ⟨round, behindComma, first, middle, hround, hreadComma, hfirst, hrest⟩
    · exact ⟨[], by simp, .refl _⟩
    obtain rfl := Nat.succ.inj hround
    obtain ⟨entry, rfl, hreadEntry⟩ := hitem _ _ _ hfirst
    obtain ⟨entries, rfl, hreadEntries⟩ := ih hrest
    refine ⟨entry :: entries, by simp, ?_⟩
    simpa using (hreadComma.trans hreadEntry).trans hreadEntries

theorem declaration_passed {kind : VarKind} (hknows : compiler.Knows scope)
    (hrun : declaration budget kind compiler = .ok () reached) :
    ∃ declared : Declaration, scope.Admits (declared.vars kind) ∧
      Passed compiler declared.tokens reached (scope.declareAll (declared.vars kind)) := by
  obtain ⟨text, typed, htype, hrun⟩ := bind_ok_iff.1 hrun
  obtain ⟨names, listed, hlist, hrun⟩ := bind_ok_iff.1 hrun
  obtain ⟨_, defined, hdefine, hsemicolon⟩ := bind_ok_iff.1 hrun
  obtain ⟨first, named, hfirst, hothers⟩ := bind_ok_iff.1 hlist
  obtain ⟨type, rfl, hreadType⟩ := type_consumed htype
  obtain ⟨others, rfl, hreadOthers⟩ := commaListFrom_consumed id
    (fun name => [.identifier name]) (fun _ _ found hname => ⟨found, rfl, name_consumed hname⟩)
    hothers
  have hread := (hreadType.trans (name_consumed hfirst)).trans hreadOthers
  have hpassed := hread.passed hknows
  rw [defineAll_eq] at hdefine
  obtain ⟨hadmits, hdefined⟩ := defineEach_passed hpassed.knows hdefine
  have hend := (expect_consumed hsemicolon).passed hdefined.knows
  refine ⟨⟨type, first, others⟩, ?_, ?_⟩
  · simpa [Declaration.vars, Declaration.names] using hadmits
  · simpa [Declaration.vars, Declaration.names, Declaration.tokens] using
      (hpassed.trans hdefined).trans hend

/-- Declarations in a row. The items are whatever is made of a declaration and the
keyword that it stands behind. -/
theorem varDeclarations_passed {β : Type} {head : Token → Option VarKind}
    (tokensOf : β → List Token) (varsOf : β → List Variable)
    (hitem : ∀ token kind (declared : Declaration), head token = some kind →
      ∃ item : β, tokensOf item = token :: declared.tokens ∧ varsOf item = declared.vars kind)
    {rounds : Nat} (hknows : compiler.Knows scope)
    (hrun : many head (varDeclaration budget) rounds compiler = .ok () reached) :
    ∃ items : List β, scope.Admits (items.flatMap varsOf) ∧
      Passed compiler (items.flatMap tokensOf) reached
        (scope.declareAll (items.flatMap varsOf)) := by
  -- the scope grows with every declaration, so the induction is for all scopes
  induction rounds generalizing compiler scope with
  | zero =>
    cases hrun
    exact ⟨[], trivial, (Consumed.refl _).passed hknows⟩
  | succ _ ih =>
    rcases many_ok_cases hrun with rfl | ⟨round, kind, middle, hround, hhead, hrule, hrest⟩
    · exact ⟨[], trivial, (Consumed.refl _).passed hknows⟩
    obtain rfl := Nat.succ.inj hround
    obtain ⟨token, hcurrent, hkind⟩ := Option.bind_eq_some_iff.1 hhead
    obtain ⟨_, moved, hadvance, hdeclare⟩ := bind_ok_iff.1 hrule
    have hkeyword := (advance_consumed hcurrent hadvance).passed hknows
    obtain ⟨declared, hadmits, hdeclared⟩ := declaration_passed hkeyword.knows hdeclare
    obtain ⟨item, htokens, hvars⟩ := hitem token kind declared hkind
    rw [← hvars] at hadmits hdeclared
    obtain ⟨items, hothers, hpassed⟩ := ih hdeclared.knows hrest
    refine ⟨item :: items, ?_, ?_⟩
    · rw [List.flatMap_cons, Scope.admits_append]
      exact ⟨hadmits, hothers⟩
    · rw [List.flatMap_cons, List.flatMap_cons, Scope.declareAll_append, htokens]
      exact (hkeyword.trans hdeclared).trans hpassed

end Declarations

/-! ## Subroutines -/

section Subroutines

variable {compiler reached : Compiler} {scope : Scope} {budget : Nat}

theorem returnType_consumed (hrun : returnType compiler = .ok () reached) :
    ∃ result, Consumed compiler [resultToken result] reached := by
  rw [returnType, atKeyword_bind] at hrun
  split at hrun
  · next hcurrent =>
    have hvoid : compiler.current = some (.keyword .voidKw) := by simpa using hcurrent
    exact ⟨none, advance_consumed hvoid hrun⟩
  · obtain ⟨text, middle, htype, hpure⟩ := bind_ok_iff.1 hrun
    cases hpure
    obtain ⟨named, -, hread⟩ := type_consumed htype
    exact ⟨some named, hread⟩

theorem parameter_consumed {compiler reached : Compiler} {found : String × String}
    (hrun : (do return (← type, ← name) : CompileM (String × String)) compiler =
      .ok found reached) :
    ∃ parameter : Parameter, found = (parameter.type.text, parameter.name) ∧
      Consumed compiler parameter.tokens reached := by
  obtain ⟨text, typed, htype, hrun⟩ := bind_ok_iff.1 hrun
  obtain ⟨name, named, hname, hpure⟩ := bind_ok_iff.1 hrun
  cases hpure
  obtain ⟨type, rfl, hreadType⟩ := type_consumed htype
  exact ⟨⟨type, name⟩, rfl, hreadType.trans (name_consumed hname)⟩

theorem parameters_passed (hknows : compiler.Knows scope)
    (hrun : parameters budget compiler = .ok () reached) :
    ∃ list : List Parameter,
      scope.Admits (parameterVars list) ∧
      Passed compiler (Parameter.listTokens list) reached
        (scope.declareAll (parameterVars list)) := by
  rw [parameters, atSymbol_bind] at hrun
  split at hrun
  · cases hrun
    exact ⟨[], trivial, (Consumed.refl _).passed hknows⟩
  · obtain ⟨found, listed, hlist, hdefine⟩ := bind_ok_iff.1 hrun
    obtain ⟨pair, middle, hfirst, hothers⟩ := bind_ok_iff.1 hlist
    obtain ⟨first, rfl, hreadFirst⟩ := parameter_consumed hfirst
    obtain ⟨others, rfl, hreadOthers⟩ := commaListFrom_consumed
      (fun parameter : Parameter => (parameter.type.text, parameter.name)) Parameter.tokens
      (fun _ _ _ => parameter_consumed) hothers
    have hpassed := (hreadFirst.trans hreadOthers).passed hknows
    obtain ⟨hadmits, hdefined⟩ :=
      defineEach_passed hpassed.knows (defineParameters_eq (first :: others) ▸ hdefine)
    refine ⟨first :: others, hadmits, ?_⟩
    simpa [Parameter.listTokens] using hpassed.trans hdefined

/-- Behind `var` all variables are locals. -/
theorem eq_of_bodyVarKind? {token : Token} {kind : VarKind} (h : bodyVarKind? token = some kind) :
    token = .keyword .varKw ∧ kind = .localVar := by
  unfold bodyVarKind? at h
  split at h <;> cases h
  exact ⟨rfl, rfl⟩

/-- The declarations of a body, as the loop over them asks for them. -/
theorem exists_local {token : Token} {kind : VarKind} (declared : Declaration)
    (h : bodyVarKind? token = some kind) :
    ∃ item : Declaration, Token.keyword .varKw :: item.tokens = token :: declared.tokens ∧
      item.vars .localVar = declared.vars kind := by
  obtain ⟨rfl, rfl⟩ := eq_of_bodyVarKind? h
  exact ⟨declared, rfl, rfl⟩

theorem subroutineBody_passed {kind : SubroutineKind} (hknows : compiler.Knows scope)
    (hrun : subroutineBody budget kind compiler = .ok () reached) :
    ∃ (locals : List Declaration) (body : Block),
      scope.Admits (locals.flatMap (Declaration.vars .localVar)) ∧
      body.Scoped (scope.declareAll (locals.flatMap (Declaration.vars .localVar))) ∧
      Passed compiler
        (.symbol '{' :: (locals.flatMap (fun declared => .keyword .varKw :: declared.tokens) ++
          (body.tokens ++ [.symbol '}'])))
        reached (scope.declareAll (locals.flatMap (Declaration.vars .localVar))) := by
  obtain ⟨_, opened, hopen, hrun⟩ := bind_ok_iff.1 hrun
  obtain ⟨_, declared, hdeclare, hrun⟩ := bind_ok_iff.1 hrun
  rw [look_bind, look_bind, look_bind] at hrun
  obtain ⟨_, told, htell, hrun⟩ := bind_ok_iff.1 hrun
  obtain ⟨_, listed, hlist, hrun⟩ := bind_ok_iff.1 hrun
  obtain ⟨_, framed, hframe, hrun⟩ := bind_ok_iff.1 hrun
  obtain ⟨_, entered, henter, hrun⟩ := bind_ok_iff.1 hrun
  obtain ⟨_, done, hbody, hclose⟩ := bind_ok_iff.1 hrun
  have hopened := (expect_consumed hopen).passed hknows
  obtain ⟨locals, hadmits, hlocals⟩ :=
    varDeclarations_passed _ _ (fun _ _ => exists_local) hopened.knows hdeclare
  -- neither the log nor what is emitted for the entry reads a token
  have hentered := (((note_consumed htell).trans (note_consumed hlist)).trans
    (emit_consumed hframe)).trans (emitAll_consumed henter)
  have hready := hentered.passed hlocals.knows
  obtain ⟨body, hreadBody, hscoped⟩ := statements_reads _ budget _ _ hready.knows.symbols hbody
  have hend := (hreadBody.trans (expect_consumed hclose)).passed hready.knows
  refine ⟨locals, body, hadmits, hscoped, ?_⟩
  simpa using ((hopened.trans hlocals).trans hready).trans hend

/-- The variable that the receiver of a method is. -/
def receiverVars (className : String) (kind : SubroutineKind) : List Variable :=
  if kind = .method then [⟨"this", className, .argument⟩] else []

/-- The receiver of a method is declared before anything else, so its name is free. -/
theorem receiver_eq {kind : SubroutineKind} {next : CompileM Unit} (hknows : compiler.Knows scope)
    (hempty : scope.subroutineTier = []) :
    ∃ received, (if kind = .method then do
        Actions.still (define "this" (← Actions.look).className .argument)
        next
      else next : CompileM Unit) compiler = next received ∧
      scope.Admits (receiverVars scope.className kind) ∧
      Passed compiler [] received (scope.declareAll (receiverVars scope.className kind)) := by
  by_cases hkind : kind = .method
  -- nothing is declared yet in the tier of the subroutine, so the object cannot be refused
  · have hfree : scope.Free ⟨"this", scope.className, .argument⟩ := by
      intro symbol hmem
      have hheld : symbol ∈ scope.subroutineTier := hmem
      rw [hempty] at hheld
      cases hheld
    obtain ⟨symbol, symbols, hok, -⟩ := hknows.symbols.declare_ok hfree
    have hrun : define "this" scope.className .argument compiler =
        .ok () { compiler with symbols } := by
      rw [define, hok]
    obtain ⟨-, hpassed⟩ := define_passed ⟨"this", scope.className, .argument⟩ hknows hrun
    rw [receiverVars, if_pos hkind, if_pos hkind, look_bind, hknows.className_eq, still_eq,
      bind_ok hrun]
    exact ⟨_, rfl, ⟨hfree, trivial⟩, hpassed⟩
  · rw [receiverVars, if_neg hkind, if_neg hkind]
    exact ⟨compiler, rfl, trivial, (Consumed.refl _).passed hknows⟩

/-- The tier of the subroutine before is emptied. -/
theorem Knows.startSubroutine (hknows : compiler.Knows scope) :
    Passed compiler [] { compiler with symbols := compiler.symbols.startSubroutine }
      scope.enter where
  ahead rest hahead := by cases rest <;> exact hahead
  knows := ⟨hknows.symbols.startSubroutine, hknows.className_eq⟩

/-- A subroutine declares its variables over those of the class. -/
theorem subroutine_passed {kind : SubroutineKind} (hknows : compiler.Knows scope)
    (hcurrent : compiler.current = some (.keyword kind.keyword))
    (hrun : subroutine budget kind compiler = .ok () reached) :
    ∃ sub : Subroutine,
      scope.enter.Admits (sub.vars scope.className) ∧
      sub.body.Scoped (scope.enter.declareAll (sub.vars scope.className)) ∧
      Passed compiler sub.tokens reached
        (scope.enter.declareAll (sub.vars scope.className)) := by
  obtain ⟨_, moved, hmove, hrun⟩ := bind_ok_iff.1 hrun
  rw [still_eq, Compiler.startSubroutine, modify_bind] at hrun
  obtain ⟨_, typed, htype, hrun⟩ := bind_ok_iff.1 hrun
  obtain ⟨name, found, hname, hrun⟩ := bind_ok_iff.1 hrun
  rw [still_eq, nameSubroutine, modify_bind] at hrun
  have hmoved := (advance_consumed hcurrent hmove).passed hknows
  have hentered := hmoved.knows.startSubroutine
  obtain ⟨result, hreadType⟩ := returnType_consumed htype
  have hread := (hreadType.trans (name_consumed hname)).passed hentered.knows
  have hnamed : Consumed found [] { found with subroutineName := name } :=
    .of_still rfl rfl rfl rfl
  have hknown := hnamed.passed hread.knows
  obtain ⟨received, hrest, hadmitsThis, hreceived⟩ := receiver_eq hknown.knows rfl
  obtain ⟨_, listed, hbetween, hbody⟩ := bind_ok_iff.1 (hrest ▸ hrun)
  obtain ⟨inside, behind, hopening, hparameters, hclosing⟩ := between_ok_iff.1 hbetween
  have hopened := (expect_consumed hopening).passed hreceived.knows
  obtain ⟨list, hadmitsList, hlist⟩ := parameters_passed hopened.knows hparameters
  have hclosed := (expect_consumed hclosing).passed hlist.knows
  obtain ⟨locals, body, hadmitsLocals, hscoped, hfinal⟩ :=
    subroutineBody_passed hclosed.knows hbody
  -- the variables in the order in which they were declared
  have hvars : scope.enter.declareAll
      (Subroutine.vars scope.className ⟨kind, result, name, list, locals, body⟩) =
      ((scope.enter.declareAll (receiverVars scope.className kind)).declareAll
        (parameterVars list)).declareAll (locals.flatMap (Declaration.vars .localVar)) := by
    rw [Subroutine.vars, Scope.declareAll_append, Scope.declareAll_append]
    rfl
  refine ⟨⟨kind, result, name, list, locals, body⟩, ?_, ?_, ?_⟩
  · rw [Subroutine.vars, Scope.admits_append, Scope.admits_append, Scope.declareAll_append]
    exact ⟨⟨hadmitsThis, hadmitsList⟩, hadmitsLocals⟩
  · rw [hvars]
    exact hscoped
  · rw [hvars]
    simpa [Subroutine.tokens] using
      ((((((hmoved.trans hentered).trans hread).trans hknown).trans hreceived).trans
        hopened).trans hlist).trans (hclosed.trans hfinal)

theorem eq_of_subroutineKind? {token : Token} {kind : SubroutineKind}
    (h : subroutineKind? token = some kind) : token = .keyword kind.keyword := by
  unfold subroutineKind? at h
  split at h <;> cases h <;> rfl

/-- The subroutine tier is emptied again, and the class tier has not changed. -/
theorem enter_declareAll (scope : Scope) (sub : Subroutine) (className : String) :
    (scope.enter.declareAll (sub.vars className)).enter = scope.enter := by
  rw [Scope.declareAll_subroutine fun _ hmem => Subroutine.isClassTier_of_mem hmem]
  rfl

/-- Subroutines in a row. Each one begins with the variables of the class alone. -/
theorem subroutines_passed {rounds : Nat} (hknows : compiler.Knows scope)
    (hrun : many subroutineKind? (subroutine budget) rounds compiler = .ok () reached) :
    ∃ (list : List Subroutine) (final : Scope),
      (∀ sub ∈ list, scope.enter.Admits (sub.vars scope.className) ∧
        sub.body.Scoped (scope.enter.declareAll (sub.vars scope.className))) ∧
      Passed compiler (list.flatMap Subroutine.tokens) reached final := by
  induction rounds generalizing compiler scope with
  | zero =>
    cases hrun
    exact ⟨[], scope, by simp, (Consumed.refl _).passed hknows⟩
  | succ _ ih =>
    rcases many_ok_cases hrun with rfl | ⟨round, kind, middle, hround, hhead, hrule, hrest⟩
    · exact ⟨[], scope, by simp, (Consumed.refl _).passed hknows⟩
    obtain rfl := Nat.succ.inj hround
    obtain ⟨token, hcurrent, hkind⟩ := Option.bind_eq_some_iff.1 hhead
    obtain rfl := eq_of_subroutineKind? hkind
    obtain ⟨sub, hadmits, hscoped, hpassed⟩ := subroutine_passed hknows hcurrent hrule
    obtain ⟨others, final, hothers, hfinal⟩ := ih hpassed.knows hrest
    rw [enter_declareAll, Scope.declareAll_className] at hothers
    refine ⟨sub :: others, final, ?_, hpassed.trans hfinal⟩
    exact List.forall_mem_cons.2 ⟨⟨hadmits, hscoped⟩, hothers⟩

end Subroutines

/-! ## The class -/

theorem eq_of_classVarKind? {token : Token} {kind : VarKind}
    (h : classVarKind? token = some kind) :
    ∃ found : ClassVarKind, token = .keyword found.keyword ∧ kind = found.varKind := by
  unfold classVarKind? at h
  split at h <;> cases h
  · exact ⟨.static, rfl, rfl⟩
  · exact ⟨.field, rfl, rfl⟩

/-- The declarations of a class, as the loop over them asks for them. -/
theorem exists_classVariable {token : Token} {kind : VarKind} (declared : Declaration)
    (h : classVarKind? token = some kind) :
    ∃ item : ClassVarDeclaration, item.tokens = token :: declared.tokens ∧
      item.declaration.vars item.kind.varKind = declared.vars kind := by
  obtain ⟨found, rfl, rfl⟩ := eq_of_classVarKind? h
  exact ⟨⟨found, declared⟩, rfl, rfl⟩

/-- No variable is declared yet, so the table knows the scope of any class. -/
theorem Knows.nameClass {compiler : Compiler} {className : String}
    (hknows : compiler.Knows ⟨className, [], []⟩) (name : String) :
    Passed compiler [] { compiler with className := name } ⟨name, [], []⟩ where
  ahead rest hahead := by cases rest <;> exact hahead
  knows := ⟨⟨hknows.symbols.find, hknows.symbols.count⟩, rfl⟩

theorem classDeclaration_passed {compiler reached : Compiler} {budget : Nat}
    {className : String} (hknows : compiler.Knows ⟨className, [], []⟩)
    (hrun : classDeclaration budget compiler = .ok () reached) :
    ∃ tree : ClassTree, tree.WellScoped ∧
      ∀ rest, reached.Ahead rest → compiler.Ahead (tree.tokens ++ rest) := by
  obtain ⟨_, moved, hmove, hrun⟩ := bind_ok_iff.1 hrun
  obtain ⟨name, found, hname, hrun⟩ := bind_ok_iff.1 hrun
  rw [still_eq, Compiler.nameClass, modify_bind] at hrun
  obtain ⟨_, told, htell, hrun⟩ := bind_ok_iff.1 hrun
  obtain ⟨_, opened, hopen, hrun⟩ := bind_ok_iff.1 hrun
  obtain ⟨_, declared, hdeclare, hrun⟩ := bind_ok_iff.1 hrun
  obtain ⟨_, listed, hlist, hclose⟩ := bind_ok_iff.1 hrun
  have hread := ((expect_consumed hmove).trans (name_consumed hname)).passed hknows
  have hnamed := hread.knows.nameClass name
  have hopened := ((note_consumed htell).trans (expect_consumed hopen)).passed hnamed.knows
  obtain ⟨declarations, hadmits, hdeclared⟩ :=
    varDeclarations_passed _ _ (fun _ _ => exists_classVariable) hopened.knows hdeclare
  obtain ⟨subroutines, final, hsubroutines, hlisted⟩ := subroutines_passed hdeclared.knows hlist
  have hend := (expect_consumed hclose).passed hlisted.knows
  let tree : ClassTree := ⟨name, declarations, subroutines⟩
  -- every subroutine was read over the class tier, and the tree says so too
  have hscope : ((Scope.mk name [] []).declareAll tree.vars).enter = tree.classScope := by
    rw [show name = tree.name from rfl, tree.declareAll_vars]
    rfl
  have hsubroutines : ∀ sub ∈ tree.subroutines, tree.classScope.Admits (sub.vars tree.name) ∧
      sub.body.Scoped (tree.classScope.declareAll (sub.vars tree.name)) := by
    rw [← hscope]
    rw [Scope.declareAll_className] at hsubroutines
    exact hsubroutines
  refine ⟨tree, ⟨tree.admits_vars_iff.1 hadmits, ?_, ?_⟩, ?_⟩
  · intro sub hmem
    exact (tree.admits_subroutine_vars_iff sub).1 (hsubroutines sub hmem).1
  · intro sub hmem
    rw [← tree.declareAll_subroutine_vars sub hscope, hscope]
    exact (hsubroutines sub hmem).2
  · have hpassed := ((((hread.trans hnamed).trans hopened).trans hdeclared).trans hlisted).trans hend
    intro rest hahead
    simpa [ClassTree.tokens, tree] using hpassed.ahead rest hahead

theorem knows_of_start {lexer : Lexer} {sink : Vm.Sink} {moved : Compiler}
    (hmove : advance (start lexer sink) = .ok () moved) : moved.Knows ⟨"", [], []⟩ := by
  unfold advance at hmove
  split at hmove <;> cases hmove
  exact ⟨.empty "", rfl⟩

/-- A source that is accepted holds the tokens of a well-scoped class. -/
theorem compile_passed {lexer : Lexer} {reached : Compiler}
    (hrun : compile (start lexer {}) = .ok () reached) :
    ∃ tree : ClassTree, tree.WellScoped ∧ lexer.Yields tree.tokens := by
  rw [compile, get_bind, compileWithin] at hrun
  obtain ⟨_, moved, hmove, hrun⟩ := bind_ok_iff.1 hrun
  obtain ⟨_, finished, hclass, hrun⟩ := bind_ok_iff.1 hrun
  rw [finish, look_bind] at hrun
  split at hrun
  · exact absurd hrun unexpected_ne_ok
  · next hcurrent =>
    obtain ⟨tree, hscoped, hahead⟩ := classDeclaration_passed (knows_of_start hmove) hclass
    have hend : finished.Ahead [] := by simpa [Ahead] using hcurrent
    refine ⟨tree, hscoped, ?_⟩
    have hyields := yields_of_advance hmove (hahead [] hend)
    rwa [List.append_nil] at hyields

end Compiler

open Syntax (ClassTree lines)

/-- Every accepted source is that of a well-scoped class tree, and its output is the
translation of the tree. -/
theorem exists_tree_of_compileSource {source : Source} {text : String}
    (hok : compileSource source = .ok text) :
    ∃ tree : ClassTree, tree.WellScoped ∧ Lexer.Yields { lines := source } tree.tokens ∧
      text = lines tree.code := by
  have hrun : ∃ reached, Compiler.compile (.start { lines := source } {}) = .ok () reached := by
    rw [compileSource, Compiler.run] at hok
    split at hok
    next result compiler hresult =>
    split at hresult
    · next reached hcompile => exact ⟨reached, hcompile⟩
    · cases hresult
      cases hok
  obtain ⟨reached, hcompile⟩ := hrun
  obtain ⟨tree, hscoped, hyields⟩ := Compiler.compile_passed hcompile
  refine ⟨tree, hscoped, hyields, ?_⟩
  rw [compileSource_of_yields tree hscoped hyields] at hok
  exact (Except.ok.inj hok).symm

/-- The same for a class held in memory. -/
theorem exists_tree_of_compileText {source text : String} (hok : compileText source = .ok text) :
    ∃ tree : ClassTree, tree.WellScoped ∧ HasTokens source tree.tokens ∧
      text = lines tree.code := by
  obtain ⟨tree, hscoped, hyields, htext⟩ := exists_tree_of_compileSource hok
  exact ⟨tree, hscoped, Lexer.yields_iff_results.1 hyields, htext⟩

/-- A source has at most one class tree. -/
theorem HasTokens.tree_unique {source : String} {tree other : ClassTree}
    (htree : HasTokens source tree.tokens) (hother : HasTokens source other.tokens) :
    other = tree := by
  have hmapped : other.tokens.map (Except.ok : Token → Except Error Token) =
      tree.tokens.map Except.ok :=
    hother.symm.trans htree
  exact ClassTree.tokens_inj (List.map_injective_iff.2 (fun _ _ => Except.ok.inj) hmapped)

/-- **Nothing else is accepted.** A source that compiles lexes to its end without an
error, its tokens are those of exactly one class tree, and the tree is well scoped. -/
theorem compileText_accepts_one_tree {source text : String}
    (hok : compileText source = .ok text) :
    ∃ tree : ClassTree, HasTokens source tree.tokens ∧ tree.WellScoped ∧
      ∀ other : ClassTree, HasTokens source other.tokens → other = tree := by
  obtain ⟨tree, hscoped, htokens, -⟩ := exists_tree_of_compileText hok
  exact ⟨tree, htokens, hscoped, fun other hother => htokens.tree_unique hother⟩

/-- A run that was evaluated. -/
theorem compileText_of_toOption {source : String} (text : String)
    (heval : (compileText source).toOption = some text) : compileText source = .ok text := by
  cases hresult : compileText source with
  | error error =>
    rw [hresult] at heval
    cases heval
  | ok found =>
    rw [hresult] at heval
    exact congrArg Except.ok (Option.some.inj heval)

theorem compileText_accepts_counter :
    ∃ tree : ClassTree,
      HasTokens "class A { static int x; function void f() { let x = x + 1; return; } }"
        tree.tokens ∧ tree.WellScoped ∧
      ∀ other : ClassTree,
        HasTokens "class A { static int x; function void f() { let x = x + 1; return; } }"
          other.tokens → other = tree :=
  compileText_accepts_one_tree (compileText_of_toOption
    (lines [.function "A.f" 0, .push .static 0, .push .constant 1, .operation .add, .pop .static 0,
      .push .constant 0, .ret]) (by decide +kernel))

end Jack
