/-
Which names the compiler rejects.

A name is rejected where it is used in a body without being declared, and where a declaration
repeats a name of its tier. `RejectedAt` describes both by the tokens in front of the name and
by those behind it that belong to the same list: a list is read to its end before the first of
its names is declared.

The rules are followed backwards, as for runs that succeed. A run that fails at a name has read
all of the trees in front of it, and `Rejects` puts their tokens in front of the place.
-/
import Jack.Proofs.AcceptedClass
import Jack.Proofs.UndeclaredNames

set_option autoImplicit false

namespace Jack

/-! ## Places of names -/

namespace Syntax

/-- The items of a list in front of one of them, each with the comma behind it. -/
def itemsBefore {β : Type} (tokens : β → List Token) (items : List β) : List Token :=
  items.flatMap fun item => tokens item ++ [.symbol ',']

/-- The items of a list behind one of them, each with the comma in front of it. -/
def itemsBehind {β : Type} (tokens : β → List Token) (items : List β) : List Token :=
  items.flatMap fun item => .symbol ',' :: tokens item

theorem itemsBehind_append {β : Type} (tokens : β → List Token) (before : List β) (item : β)
    (after : List β) : itemsBehind tokens (before ++ item :: after) =
      .symbol ',' :: (itemsBefore tokens before ++ (tokens item ++ itemsBehind tokens after)) := by
  induction before with
  | nil => rfl
  | cons first rest ih =>
    rw [List.cons_append, itemsBehind, List.flatMap_cons, ← itemsBehind, ih]
    simp [itemsBefore]

/-- A list, seen from one of its items. -/
theorem list_eq_around {β : Type} (tokens : β → List Token) {first item : β}
    {others before after : List β} (h : first :: others = before ++ item :: after) :
    tokens first ++ itemsBehind tokens others =
      itemsBefore tokens before ++ (tokens item ++ itemsBehind tokens after) := by
  cases before with
  | nil =>
    obtain ⟨rfl, rfl⟩ := List.cons.inj h
    rfl
  | cons _ rest =>
    obtain ⟨rfl, rfl⟩ := List.cons.inj h
    rw [List.append_eq, itemsBehind_append]
    simp [itemsBefore]

/-- The tokens of a class without its last brace. -/
def ClassTree.openTokens (tree : ClassTree) : List Token :=
  .keyword .classKw :: .identifier tree.name :: .symbol '{' ::
    (tree.declarations.flatMap ClassVarDeclaration.tokens ++
      tree.subroutines.flatMap Subroutine.tokens)

/-- The tokens of a subroutine up to its parameters. -/
def Subroutine.headTokens (sub : Subroutine) : List Token :=
  [.keyword sub.kind.keyword, resultToken sub.result, .identifier sub.name, .symbol '(']

/-- The tokens of a subroutine up to its statements. -/
def Subroutine.openTokens (sub : Subroutine) : List Token :=
  sub.headTokens ++ (Parameter.listTokens sub.parameters ++ .symbol ')' :: .symbol '{' ::
    sub.locals.flatMap fun declared => .keyword .varKw :: declared.tokens)

/-- A name as an item of a list. -/
def nameTokens (name : String) : List Token := [.identifier name]

/-- The variables of one type and kind. -/
def namedVars (type : TypeName) (kind : VarKind) (names : List String) : List Variable :=
  names.map fun name => ⟨name, type.text, kind⟩

/-- A name is one of those that were declared before it, which are all different. -/
structure Repeats (earlier : List Variable) (name : String) : Prop where
  distinct : DistinctNames earlier
  mem : name ∈ earlier.map Variable.name

/-- A name is rejected in a subroutine. It stands behind some tokens of the subroutine and in
front of others. The scope is the one that the subroutine begins with. -/
inductive RejectedIn (outer : Scope) : Offence → String → List Token → List Token → Prop where
  /-- The variables so far are the parameters before this one, and the receiver of a method. -/
  | parameter (sub : Subroutine) (type : TypeName) {name : String} (after : List Parameter)
      (hlocals : sub.locals = []) (hrepeats : Repeats (sub.vars outer.className) name) :
      RejectedIn outer .repeated name
        (sub.headTokens ++ (itemsBefore Parameter.tokens sub.parameters ++ [type.token]))
        (itemsBehind Parameter.tokens after)
  | localVariable (sub : Subroutine) {type : TypeName} {before : List String} {name : String}
      (after : List String)
      (hrepeats : Repeats (sub.vars outer.className ++ namedVars type .localVar before) name) :
      RejectedIn outer .repeated name
        (sub.openTokens ++ .keyword .varKw :: type.token :: itemsBefore nameTokens before)
        (itemsBehind nameTokens after)
  /-- The tokens seen are statements, up to a name in one of them. -/
  | use (sub : Subroutine) {seen : List Token} {name : String}
      (hinside : ∀ token ∈ seen, Compiler.subroutineKind? token = none)
      (hundeclared : ¬ (outer.declareAll (sub.vars outer.className)).Declares name) :
      RejectedIn outer .undeclared name (sub.openTokens ++ seen) []

/-- A name is rejected in a class. It stands behind some tokens, and in front of others that
were read before it was rejected. -/
inductive RejectedAt : Offence → String → List Token → List Token → Prop where
  | classVariable (tree : ClassTree) (kind : ClassVarKind) {type : TypeName}
      {before : List String} {name : String} (after : List String)
      (hsubroutines : tree.subroutines = [])
      (hrepeats : Repeats (tree.vars ++ namedVars type kind.varKind before) name) :
      RejectedAt .repeated name
        (tree.openTokens ++ .keyword kind.keyword :: type.token :: itemsBefore nameTokens before)
        (itemsBehind nameTokens after)
  | inside {tree : ClassTree} {offence : Offence} {name : String} {front behind : List Token}
      (hrejected : RejectedIn tree.classScope offence name front behind) :
      RejectedAt offence name (tree.openTokens ++ front) behind

namespace Scope

/-- Declaring some variables in order fails at one of them. -/
structure Clash (scope : Scope) (before : List Variable) (clashing : Variable) : Prop where
  admits : scope.Admits before
  held : ¬ (scope.declareAll before).Free clashing

theorem Clash.behind {scope : Scope} {first before : List Variable} {clashing : Variable}
    (hadmits : scope.Admits first) (h : (scope.declareAll first).Clash before clashing) :
    scope.Clash (first ++ before) clashing where
  admits := (scope.admits_append first before).2 ⟨hadmits, h.admits⟩
  held := by
    rw [declareAll_append]
    exact h.held

/-- In a tier that was empty before, the clash is with one of the variables. -/
theorem Clash.repeats {scope : Scope} {before : List Variable} {clashing : Variable}
    (kind : VarKind) (hempty : scope.tier kind = [])
    (hkind : ∀ added ∈ before ++ [clashing], added.kind.isClassTier = kind.isClassTier)
    (h : scope.Clash before clashing) : Repeats before clashing.name := by
  have hnone : ((scope.tier kind).map Symbol.name).Nodup := by
    rw [hempty]
    exact List.nodup_nil
  have hadmits (vars : List Variable) (hvars : ∀ added ∈ vars,
      added.kind.isClassTier = kind.isClassTier) : scope.Admits vars ↔ DistinctNames vars := by
    rw [admits_iff_nodup kind hvars hnone, hempty]
    exact Iff.rfl
  have hdistinct := (hadmits before fun added hmem =>
    hkind added (List.mem_append_left _ hmem)).1 h.admits
  refine ⟨hdistinct, ?_⟩
  by_contra hnew
  -- with a new name the variable would be admitted behind the others
  have hall : DistinctNames (before ++ [clashing]) := by
    rw [DistinctNames, List.map_append, List.nodup_append]
    refine ⟨hdistinct, List.nodup_singleton _, ?_⟩
    rintro name hmem _ hsingle rfl
    rw [List.map_singleton, List.mem_singleton] at hsingle
    exact hnew (hsingle ▸ hmem)
  exact h.held (((scope.admits_append before [clashing]).1 ((hadmits _ hkind).2 hall)).2.1)

end Scope

end Syntax

namespace Compiler

open Syntax
open Vm (Command)

/-! ## Runs that fail at a name -/

/-- If a run fails at a name, then at a given place in what it read. -/
def Rejects (place : Offence → String → List Token → List Token → Prop) (compiler : Compiler)
    (error : Error) (reached : Compiler) : Prop :=
  error.Blameless ∨ ∃ offence name front behind,
    error = Offence.error offence reached.lexer.lineNumber name ∧ place offence name front behind ∧
      ∀ rest, reached.Ahead rest →
        compiler.Ahead (front ++ .identifier name :: (behind ++ rest))

/-- What was read before the run is in front of the place. -/
theorem Rejects.behind {place : Offence → String → List Token → List Token → Prop}
    {compiler middle reached : Compiler} {error : Error} {seen : List Token}
    (hread : ∀ rest, middle.Ahead rest → compiler.Ahead (seen ++ rest))
    (h : Rejects (fun offence name front behind => place offence name (seen ++ front) behind)
      middle error reached) : Rejects place compiler error reached := by
  refine h.imp_right ?_
  rintro ⟨offence, name, front, behind, herror, hplace, hahead⟩
  refine ⟨offence, name, seen ++ front, behind, herror, hplace, ?_⟩
  intro rest hrest
  rw [List.append_assoc]
  exact hread _ (hahead rest hrest)

/-- A loop that fails goes round at least once, and fails then or in a later round. -/
theorem many_error_cases {α : Type} {head : Token → Option α} {rule : α → CompileM Unit}
    {rounds : Nat} {compiler reached : Compiler} {error : Error}
    (hrun : many head rule rounds compiler = .error error reached) :
    ∃ round token found, rounds = round + 1 ∧ compiler.current = some token ∧
      head token = some found ∧ (rule found compiler = .error error reached ∨
        ∃ middle, rule found compiler = .ok () middle ∧
          many head rule round middle = .error error reached) := by
  cases rounds with
  | zero => cases hrun
  | succ round =>
    rw [many, look_bind] at hrun
    cases hfound : compiler.current.bind head with
    | none =>
      rw [hfound] at hrun
      cases hrun
    | some found =>
      rw [hfound] at hrun
      obtain ⟨token, hcurrent, hhead⟩ := Option.bind_eq_some_iff.1 hfound
      refine ⟨round, token, found, rfl, hcurrent, hhead, ?_⟩
      rcases bind_error_cases hrun with hrule | ⟨_, middle, hrule, hrest⟩
      · exact .inl hrule
      · exact .inr ⟨middle, hrule, hrest⟩

/-! ## Declarations -/

section Declarations

variable {compiler reached : Compiler} {scope : Scope} {budget : Nat} {error : Error}
  {place : Offence → String → List Token → List Token → Prop}

/-- Declaring stops at the first name that clashes, and reads nothing. -/
theorem defineEach_clash {vars : List Variable} (hknows : compiler.Knows scope)
    (hrun : defineEach vars compiler = .error error reached) :
    ∃ before clashing after, vars = before ++ clashing :: after ∧ scope.Clash before clashing ∧
      error = .duplicateName (some reached.lexer.lineNumber) clashing.name ∧
        ∀ rest, reached.Ahead rest → compiler.Ahead rest := by
  induction vars generalizing compiler scope with
  | nil => cases hrun
  | cons first others ih =>
    -- the first name is refused itself, or it is declared and one behind it is refused
    rcases bind_error_cases hrun with hfirst | ⟨_, middle, hfirst, hothers⟩
    · refine ⟨[], first, others, rfl, ⟨trivial, ?_⟩, ?_⟩
      · intro hfree
        obtain ⟨symbol, symbols, hok, -⟩ := hknows.symbols.declare_ok hfree
        rw [define, hok] at hfirst
        cases hfirst
      · unfold define at hfirst
        split at hfirst
        · cases hfirst
        · cases hfirst
          exact ⟨rfl, fun _ => id⟩
    · obtain ⟨hfree, hpassed⟩ := define_passed first hknows hfirst
      obtain ⟨before, clashing, after, rfl, hclash, herror, hahead⟩ := ih hpassed.knows hothers
      refine ⟨first :: before, clashing, after, rfl, ?_, herror, ?_⟩
      · exact ⟨⟨hfree, hclash.admits⟩, hclash.held⟩
      · exact fun rest hrest => hpassed.ahead rest (hahead rest hrest)

/-- A declaration is read up to its semicolon before one of its names is rejected. -/
theorem declaration_rejects {kind : VarKind} (hknows : compiler.Knows scope)
    (hplace : ∀ type before name after,
      scope.Clash (namedVars type kind before) ⟨name, type.text, kind⟩ →
      place .repeated name (type.token :: itemsBefore nameTokens before)
        (itemsBehind nameTokens after))
    (hrun : declaration budget kind compiler = .error error reached) :
    Rejects place compiler error reached := by
  rcases bind_error_cases hrun with htype | ⟨text, typed, htype, hrun⟩
  · exact .inl (blameless_type _ _ _ htype)
  rcases bind_error_cases hrun with hlist | ⟨names, listed, hlist, hrun⟩
  · exact .inl (blameless_commaList blameless_name budget _ _ _ hlist)
  obtain ⟨first, named, hfirst, hothers⟩ := bind_ok_iff.1 hlist
  obtain ⟨type, rfl, hreadType⟩ := type_consumed htype
  obtain ⟨others, rfl, hreadOthers⟩ := commaListFrom_consumed id nameTokens
    (fun _ _ found hname => ⟨found, rfl, name_consumed hname⟩) hothers
  have hread : Consumed compiler
      ([type.token] ++ (nameTokens first ++ itemsBehind nameTokens others)) listed :=
    hreadType.trans ((name_consumed hfirst).trans hreadOthers)
  rcases bind_error_cases hrun with hdefine | ⟨_, defined, -, hsemicolon⟩
  · rw [defineAll_eq, ← namedVars] at hdefine
    obtain ⟨before, clashing, after, hvars, hclash, rfl, hahead⟩ :=
      defineEach_clash (hread.passed hknows).knows hdefine
    -- the variables are made of the names, so the split is one of the names
    obtain ⟨before, tail, hnames, rfl, htail⟩ := List.map_eq_append_iff.1 hvars
    obtain ⟨name, after, rfl, rfl, -⟩ := List.map_eq_cons_iff.1 htail
    refine .inr ⟨.repeated, name, _, _, rfl, hplace type before name after hclash, ?_⟩
    intro rest hrest
    rw [list_eq_around nameTokens (show first :: others = _ by simpa using hnames)] at hread
    simpa [nameTokens] using hread.ahead rest (hahead rest hrest)
  · exact .inl (blameless_expect _ _ _ _ hsemicolon)

/-- Declarations in a row, as `varDeclarations_passed` has them. The names before are those of
the whole declarations and those of the same list. -/
theorem varDeclarations_rejects {β : Type} {head : Token → Option VarKind}
    (tokensOf : β → List Token) (varsOf : β → List Variable)
    (hitem : ∀ token kind (declared : Declaration), head token = some kind →
      ∃ item : β, tokensOf item = token :: declared.tokens ∧ varsOf item = declared.vars kind)
    {rounds : Nat} (hknows : compiler.Knows scope)
    (hplace : ∀ (items : List β) token kind type before name after, head token = some kind →
      scope.Clash (items.flatMap varsOf ++ namedVars type kind before) ⟨name, type.text, kind⟩ →
      place .repeated name
        (items.flatMap tokensOf ++ token :: type.token :: itemsBefore nameTokens before)
        (itemsBehind nameTokens after))
    (hrun : many head (varDeclaration budget) rounds compiler = .error error reached) :
    Rejects place compiler error reached := by
  induction rounds generalizing compiler scope place with
  | zero => cases hrun
  | succ _ ih =>
    obtain ⟨round, token, kind, hround, hcurrent, hkind, hrun⟩ := many_error_cases hrun
    obtain rfl := Nat.succ.inj hround
    rcases hrun with hrule | ⟨middle, hrule, hrest⟩
    · rcases bind_error_cases hrule with hadvance | ⟨_, moved, hadvance, hdeclare⟩
      · exact .inl (blameless_advance _ _ _ hadvance)
      have hkeyword := (advance_consumed hcurrent hadvance).passed hknows
      refine .behind hkeyword.ahead (declaration_rejects hkeyword.knows ?_ hdeclare)
      intro type before name after hclash
      exact hplace [] token kind type before name after hkind hclash
    · obtain ⟨_, moved, hadvance, hdeclare⟩ := bind_ok_iff.1 hrule
      have hkeyword := (advance_consumed hcurrent hadvance).passed hknows
      obtain ⟨declared, hadmits, hdeclared⟩ := declaration_passed hkeyword.knows hdeclare
      obtain ⟨item, htokens, hvars⟩ := hitem token kind declared hkind
      rw [← hvars] at hadmits hdeclared
      -- the scope grows with every declaration, and the tokens in front with it
      refine .behind (hkeyword.trans hdeclared).ahead (ih hdeclared.knows ?_ hrest)
      intro items token' kind' type before name after hkind' hclash
      have hfirst := hplace (item :: items) token' kind' type before name after hkind'
      rw [List.flatMap_cons, List.flatMap_cons, List.append_assoc, List.append_assoc, htokens]
        at hfirst
      exact hfirst (hclash.behind hadmits)

end Declarations

/-! ## Subroutines -/

theorem blameless_returnType : Blameless returnType := by
  refine blameless_look fun compiler => ?_
  split
  · exact blameless_advance
  · exact blameless_type.bind fun _ => blameless_pure _

section Subroutines

variable {compiler reached : Compiler} {scope : Scope} {budget : Nat} {error : Error}
  {place : Offence → String → List Token → List Token → Prop}

theorem parameters_rejects (hknows : compiler.Knows scope)
    (hplace : ∀ before (type : TypeName) name after,
      scope.Clash (parameterVars before) ⟨name, type.text, .argument⟩ →
      place .repeated name (itemsBefore Parameter.tokens before ++ [type.token])
        (itemsBehind Parameter.tokens after))
    (hrun : parameters budget compiler = .error error reached) :
    Rejects place compiler error reached := by
  have hitem : Blameless (do return (← type, ← name) : CompileM (String × String)) :=
    blameless_type.bind fun _ => blameless_name.bind fun _ => blameless_pure _
  rw [parameters, atSymbol_bind] at hrun
  split at hrun
  · cases hrun
  -- the whole list is read before any name in it is declared
  rcases bind_error_cases hrun with hlist | ⟨found, listed, hlist, hdefine⟩
  · exact .inl (blameless_commaList hitem budget _ _ _ hlist)
  obtain ⟨pair, middle, hfirst, hothers⟩ := bind_ok_iff.1 hlist
  obtain ⟨first, rfl, hreadFirst⟩ := parameter_consumed hfirst
  obtain ⟨others, rfl, hreadOthers⟩ := commaListFrom_consumed
    (fun parameter : Parameter => (parameter.type.text, parameter.name)) Parameter.tokens
    (fun _ _ _ => parameter_consumed) hothers
  have hread : Consumed compiler
      (first.tokens ++ itemsBehind Parameter.tokens others) listed := hreadFirst.trans hreadOthers
  rw [show [(first.type.text, first.name)].reverse ++
      others.map (fun parameter : Parameter => (parameter.type.text, parameter.name)) =
      (first :: others).map fun parameter => (parameter.type.text, parameter.name) from rfl,
    defineParameters_eq] at hdefine
  obtain ⟨before, clashing, after, hvars, hclash, rfl, hahead⟩ :=
    defineEach_clash (hread.passed hknows).knows hdefine
  obtain ⟨before, tail, hlisted, rfl, htail⟩ := List.map_eq_append_iff.1 hvars
  obtain ⟨⟨type, name⟩, after, rfl, rfl, -⟩ := List.map_eq_cons_iff.1 htail
  refine .inr ⟨.repeated, name, _, _, rfl, hplace before type name after hclash, ?_⟩
  intro rest hrest
  rw [list_eq_around Parameter.tokens hlisted] at hread
  simpa [Parameter.tokens] using hread.ahead rest (hahead rest hrest)

/-- In the statements of a body nothing is declared any more. -/
theorem statements_rejects (hsymbols : compiler.symbols.Represents scope)
    (hplace : ∀ seen name, (∀ token ∈ seen, subroutineKind? token = none) →
      ¬ scope.Declares name → place .undeclared name seen [])
    (hrun : statements budget compiler = .error error reached) :
    Rejects place compiler error reached := by
  have hfollows := tracks_statements budget compiler
  rw [hrun] at hfollows
  refine hfollows.imp_right ?_
  rintro ⟨name, seen, rfl, hnone, hread, hlast⟩
  rw [List.nil_append, List.getLast?_eq_some_iff] at hlast
  obtain ⟨front, rfl⟩ := hlast
  rw [hsymbols.resolve?_eq, Scope.resolve?_eq_none_iff] at hnone
  refine ⟨.undeclared, name, front, [], rfl, ?_, ?_⟩
  · refine hplace front name (fun token hmem => ?_) hnone
    exact hread.inside token (List.mem_append_left _ hmem)
  · intro rest hrest
    simpa using hread.consumed.ahead rest hrest

theorem subroutineBody_rejects {kind : SubroutineKind} (hknows : compiler.Knows scope)
    (hlocal : ∀ (locals : List Declaration) type before name after,
      scope.Clash (locals.flatMap (Declaration.vars .localVar) ++ namedVars type .localVar before)
        ⟨name, type.text, .localVar⟩ →
      place .repeated name
        (.symbol '{' :: (locals.flatMap (fun declared => .keyword .varKw :: declared.tokens) ++
          .keyword .varKw :: type.token :: itemsBefore nameTokens before))
        (itemsBehind nameTokens after))
    (huse : ∀ (locals : List Declaration) seen name,
      (∀ token ∈ seen, subroutineKind? token = none) →
      ¬ (scope.declareAll (locals.flatMap (Declaration.vars .localVar))).Declares name →
      place .undeclared name
        (.symbol '{' ::
          (locals.flatMap (fun declared => .keyword .varKw :: declared.tokens) ++ seen))
        [])
    (hrun : subroutineBody budget kind compiler = .error error reached) :
    Rejects place compiler error reached := by
  rcases bind_error_cases hrun with hopen | ⟨_, opened, hopen, hrun⟩
  · exact .inl (blameless_expect _ _ _ _ hopen)
  have hopened := (expect_consumed hopen).passed hknows
  rcases bind_error_cases hrun with hdeclare | ⟨_, declared, hdeclare, hrun⟩
  · refine .behind hopened.ahead
      (varDeclarations_rejects _ _ (fun _ _ => exists_local) hopened.knows ?_ hdeclare)
    intro locals token kind type before name after hfound hclash
    obtain ⟨rfl, rfl⟩ := eq_of_bodyVarKind? hfound
    exact hlocal locals type before name after hclash
  obtain ⟨locals, -, hlocals⟩ :=
    varDeclarations_passed _ _ (fun _ _ => exists_local) hopened.knows hdeclare
  rw [look_bind, look_bind, look_bind] at hrun
  -- what stands between the declarations and the statements reads nothing
  rcases bind_error_cases hrun with htell | ⟨_, told, htell, hrun⟩
  · exact .inl (blameless_note _ _ _ _ htell)
  rcases bind_error_cases hrun with hlist | ⟨_, listed, hlist, hrun⟩
  · exact .inl (blameless_note _ _ _ _ hlist)
  rcases bind_error_cases hrun with hframe | ⟨_, framed, hframe, hrun⟩
  · exact .inl (blameless_emit _ _ _ _ hframe)
  rcases bind_error_cases hrun with henter | ⟨_, entered, henter, hrun⟩
  · exact .inl (blameless_emitAll _ _ _ _ henter)
  rcases bind_error_cases hrun with hbody | ⟨_, done, -, hclose⟩
  · have hentered := (((note_consumed htell).trans (note_consumed hlist)).trans
      (emit_consumed hframe)).trans (emitAll_consumed henter)
    have hready := (hopened.trans hlocals).trans (hentered.passed hlocals.knows)
    refine .behind hready.ahead (statements_rejects hready.knows.symbols ?_ hbody)
    intro seen name hinside hundeclared
    simpa using huse locals seen name hinside hundeclared
  · exact .inl (blameless_expect _ _ _ _ hclose)

/-- Up to its parameters a subroutine rejects no name. -/
theorem subroutine_error_cases {kind : SubroutineKind} (hknows : compiler.Knows scope)
    (hcurrent : compiler.current = some (.keyword kind.keyword))
    (hrun : subroutine budget kind compiler = .error error reached) :
    error.Blameless ∨ ∃ (result : Option TypeName) (name : String) (received : Compiler),
      (between '(' (parameters budget) ')' >>= fun _ => subroutineBody budget kind) received =
        .error error reached ∧
      scope.enter.Admits (receiverVars scope.className kind) ∧
      Passed compiler [.keyword kind.keyword, resultToken result, .identifier name] received
        (scope.enter.declareAll (receiverVars scope.className kind)) := by
  rcases bind_error_cases hrun with hmove | ⟨_, moved, hmove, hrun⟩
  · exact .inl (blameless_advance _ _ _ hmove)
  rw [still_eq, startSubroutine, modify_bind] at hrun
  have hmoved := (advance_consumed hcurrent hmove).passed hknows
  have hentered := hmoved.knows.startSubroutine
  rcases bind_error_cases hrun with htype | ⟨_, typed, htype, hrun⟩
  · exact .inl (blameless_returnType _ _ _ htype)
  rcases bind_error_cases hrun with hname | ⟨name, found, hname, hrun⟩
  · exact .inl (blameless_name _ _ _ hname)
  rw [still_eq, nameSubroutine, modify_bind] at hrun
  obtain ⟨result, hreadType⟩ := returnType_consumed htype
  have hread := (hreadType.trans (name_consumed hname)).passed hentered.knows
  have hnamed : Consumed found [] { found with subroutineName := name } :=
    .of_still rfl rfl rfl rfl
  have hknown := hnamed.passed hread.knows
  -- the object of a method is declared behind the name, where nothing was declared yet
  obtain ⟨received, hrest, hadmits, hreceived⟩ := receiver_eq hknown.knows rfl
  rw [hrest] at hrun
  exact .inr ⟨result, name, received, hrun, hadmits,
    (((hmoved.trans hentered).trans hread).trans hknown).trans hreceived⟩

/-- A clash among the parameters of a subroutine, of which nothing but the parameters before it
is known yet. -/
theorem rejectedIn_parameter {outer : Scope} {kind : SubroutineKind} (result : Option TypeName)
    (name : String) {before : List Parameter} {type : TypeName} {again : String}
    (after : List Parameter) (hempty : outer.subroutineTier = [])
    (hadmits : outer.Admits (receiverVars outer.className kind))
    (hclash : (outer.declareAll (receiverVars outer.className kind)).Clash (parameterVars before)
      ⟨again, type.text, .argument⟩) :
    RejectedIn outer .repeated again
      (.keyword kind.keyword :: resultToken result :: .identifier name :: .symbol '(' ::
        (itemsBefore Parameter.tokens before ++ [type.token]))
      (itemsBehind Parameter.tokens after) := by
  let sub : Subroutine := ⟨kind, result, name, before, [], .nil⟩
  have hwhole : outer.Clash (sub.vars outer.className) ⟨again, type.text, .argument⟩ := by
    rw [Subroutine.vars, List.flatMap_nil, List.append_nil]
    exact hclash.behind hadmits
  have hrepeats := hwhole.repeats .argument hempty (List.forall_mem_append.2
    ⟨fun _ => Subroutine.isClassTier_of_mem, List.forall_mem_singleton.2 rfl⟩)
  exact .parameter sub type after rfl hrepeats

/-- A clash among the locals of a subroutine. -/
theorem rejectedIn_localVariable {outer : Scope} (sub : Subroutine) {type : TypeName}
    {before : List String} {again : String} (after : List String)
    (hempty : outer.subroutineTier = [])
    (hclash : outer.Clash (sub.vars outer.className ++ namedVars type .localVar before)
      ⟨again, type.text, .localVar⟩) :
    RejectedIn outer .repeated again
      (sub.openTokens ++ .keyword .varKw :: type.token :: itemsBefore nameTokens before)
      (itemsBehind nameTokens after) := by
  have hnamed : ∀ added ∈ namedVars type .localVar before, added.kind.isClassTier = false := by
    intro added hmem
    obtain ⟨_, -, rfl⟩ := List.mem_map.1 hmem
    rfl
  have hvars : ∀ added ∈ sub.vars outer.className, added.kind.isClassTier = false :=
    fun _ => Subroutine.isClassTier_of_mem
  have hrepeats := hclash.repeats .localVar hempty (List.forall_mem_append.2
    ⟨List.forall_mem_append.2 ⟨hvars, hnamed⟩, List.forall_mem_singleton.2 rfl⟩)
  exact .localVariable sub after hrepeats

/-- A subroutine rejects names among its variables and in its statements. -/
theorem subroutine_rejects {kind : SubroutineKind} (hknows : compiler.Knows scope)
    (hcurrent : compiler.current = some (.keyword kind.keyword))
    (hplace : ∀ offence name front behind, RejectedIn scope.enter offence name front behind →
      place offence name front behind)
    (hrun : subroutine budget kind compiler = .error error reached) :
    Rejects place compiler error reached := by
  rcases subroutine_error_cases hknows hcurrent hrun with
    hblameless | ⟨result, name, received, hrun, hadmits, hhead⟩
  · exact .inl hblameless
  rcases bind_error_cases hrun with hbetween | ⟨_, listed, hbetween, hbody⟩
  · rcases bind_error_cases hbetween with hopening | ⟨_, inside, hopening, hbetween⟩
    · exact .inl (blameless_expect _ _ _ _ hopening)
    rcases bind_error_cases hbetween with hparameters | ⟨_, behind, -, hclosing⟩
    · have hopened := hhead.trans ((expect_consumed hopening).passed hhead.knows)
      refine .behind hopened.ahead (parameters_rejects hopened.knows ?_ hparameters)
      intro before type again after hclash
      exact hplace _ _ _ _ (rejectedIn_parameter result name after rfl hadmits hclash)
    · exact .inl ((blameless_expect _).bind (fun _ => blameless_pure _) _ _ _ hclosing)
  · obtain ⟨inside, behind, hopening, hparameters, hclosing⟩ := between_ok_iff.1 hbetween
    have hopened := hhead.trans ((expect_consumed hopening).passed hhead.knows)
    obtain ⟨list, hadmitsList, hlist⟩ := parameters_passed hopened.knows hparameters
    have hclosed := (hopened.trans hlist).trans ((expect_consumed hclosing).passed hlist.knows)
    have hvars := (Scope.admits_append _ _ _).2 ⟨hadmits, hadmitsList⟩
    have hknown := hclosed.knows
    rw [← Scope.declareAll_append] at hknown
    refine .behind hclosed.ahead (subroutineBody_rejects hknown ?_ ?_ hbody)
    -- the parameters were accepted, so a name can clash with them or with earlier locals
    · intro locals type before again after hclash
      have hwhole := hclash.behind hvars
      rw [← List.append_assoc] at hwhole
      have hrejected : RejectedIn scope.enter .repeated again _ _ :=
        rejectedIn_localVariable ⟨kind, result, name, list, locals, .nil⟩ after rfl hwhole
      simpa [Subroutine.openTokens, Subroutine.headTokens] using hplace _ _ _ _ hrejected
    · intro locals seen used hinside hundeclared
      rw [← Scope.declareAll_append] at hundeclared
      have hrejected : RejectedIn scope.enter .undeclared used _ _ :=
        .use ⟨kind, result, name, list, locals, .nil⟩ hinside hundeclared
      simpa [Subroutine.openTokens, Subroutine.headTokens] using hplace _ _ _ _ hrejected

/-- Subroutines in a row reject what one of them rejects, behind the others. -/
theorem subroutines_rejects {rounds : Nat} (hknows : compiler.Knows scope)
    (hplace : ∀ (list : List Subroutine) offence name front behind,
      RejectedIn scope.enter offence name front behind →
      place offence name (list.flatMap Subroutine.tokens ++ front) behind)
    (hrun : many subroutineKind? (subroutine budget) rounds compiler = .error error reached) :
    Rejects place compiler error reached := by
  induction rounds generalizing compiler scope place with
  | zero => cases hrun
  | succ _ ih =>
    obtain ⟨round, token, kind, hround, hcurrent, hkind, hrun⟩ := many_error_cases hrun
    obtain rfl := Nat.succ.inj hround
    obtain rfl := eq_of_subroutineKind? hkind
    rcases hrun with hrule | ⟨middle, hrule, hrest⟩
    · exact subroutine_rejects hknows hcurrent (fun _ _ _ _ => hplace [] _ _ _ _) hrule
    · obtain ⟨sub, -, -, hpassed⟩ := subroutine_passed hknows hcurrent hrule
      -- the next subroutine begins with the same scope
      refine .behind hpassed.ahead (ih hpassed.knows ?_ hrest)
      intro list offence name front behind hrejected
      rw [enter_declareAll] at hrejected
      have hfirst := hplace (sub :: list) _ _ _ _ hrejected
      rwa [List.flatMap_cons, List.append_assoc] at hfirst

end Subroutines

/-! ## The class -/

/-- A clash among the class variables. -/
theorem rejectedAt_classVariable (tree : ClassTree) (kind : ClassVarKind) {type : TypeName}
    {before : List String} {again : String} (after : List String)
    (hsubroutines : tree.subroutines = [])
    (hclash : (Scope.mk tree.name [] []).Clash (tree.vars ++ namedVars type kind.varKind before)
      ⟨again, type.text, kind.varKind⟩) :
    RejectedAt .repeated again
      (tree.openTokens ++ .keyword kind.keyword :: type.token :: itemsBefore nameTokens before)
      (itemsBehind nameTokens after) := by
  have hkind : kind.varKind.isClassTier = true := by cases kind <;> rfl
  have hnamed : ∀ added ∈ namedVars type kind.varKind before, added.kind.isClassTier = true := by
    intro added hmem
    obtain ⟨_, -, rfl⟩ := List.mem_map.1 hmem
    exact hkind
  have hvars : ∀ added ∈ tree.vars, added.kind.isClassTier = true :=
    fun _ => ClassTree.isClassTier_of_mem
  have hrepeats := hclash.repeats .static rfl (List.forall_mem_append.2
    ⟨List.forall_mem_append.2 ⟨hvars, hnamed⟩, List.forall_mem_singleton.2 hkind⟩)
  exact .classVariable tree kind after hsubroutines hrepeats

/-- **A class** rejects names among its variables and in its subroutines. -/
theorem classDeclaration_rejects {compiler reached : Compiler} {budget : Nat} {error : Error}
    {className : String} (hknows : compiler.Knows ⟨className, [], []⟩)
    (hrun : classDeclaration budget compiler = .error error reached) :
    Rejects RejectedAt compiler error reached := by
  rcases bind_error_cases hrun with hmove | ⟨_, moved, hmove, hrun⟩
  · exact .inl (blameless_expect _ _ _ _ hmove)
  rcases bind_error_cases hrun with hname | ⟨name, found, hname, hrun⟩
  · exact .inl (blameless_name _ _ _ hname)
  rw [still_eq, nameClass, modify_bind] at hrun
  rcases bind_error_cases hrun with htell | ⟨_, told, htell, hrun⟩
  · exact .inl (blameless_note _ _ _ _ htell)
  rcases bind_error_cases hrun with hopen | ⟨_, opened, hopen, hrun⟩
  · exact .inl (blameless_expect _ _ _ _ hopen)
  have hread := ((expect_consumed hmove).trans (name_consumed hname)).passed hknows
  have hnamed := hread.knows.nameClass name
  have hopened := (hread.trans hnamed).trans
    (((note_consumed htell).trans (expect_consumed hopen)).passed hnamed.knows)
  rcases bind_error_cases hrun with hdeclare | ⟨_, declared, hdeclare, hrun⟩
  · refine .behind hopened.ahead
      (varDeclarations_rejects _ _ (fun _ _ => exists_classVariable) hopened.knows ?_ hdeclare)
    intro items token kind type before again after hfound hclash
    obtain ⟨classKind, rfl, rfl⟩ := eq_of_classVarKind? hfound
    have hrejected := rejectedAt_classVariable ⟨name, items, []⟩ classKind after rfl hclash
    simpa [ClassTree.openTokens] using hrejected
  obtain ⟨declarations, -, hdeclared⟩ :=
    varDeclarations_passed _ _ (fun _ _ => exists_classVariable) hopened.knows hdeclare
  rcases bind_error_cases hrun with hlist | ⟨_, listed, -, hclose⟩
  · have hbefore := hopened.trans hdeclared
    refine .behind hbefore.ahead (subroutines_rejects hbefore.knows ?_ hlist)
    intro list offence again front behind hrejected
    -- the subroutines up to the rejected name make a tree with what was declared before them
    let tree : ClassTree := ⟨name, declarations, list⟩
    have hscope : ((Scope.mk name [] []).declareAll tree.vars).enter = tree.classScope := by
      rw [show name = tree.name from rfl, tree.declareAll_vars]
      rfl
    have hinside : RejectedIn tree.classScope offence again front behind := hscope ▸ hrejected
    simpa [ClassTree.openTokens, tree] using RejectedAt.inside hinside
  · exact .inl (blameless_expect _ _ _ _ hclose)

theorem blameless_close : Blameless close := by
  rintro ⟨lexer, ⟨⟨bytes, capacity, flushFails, flushes⟩, closed, log⟩, symbols, current,
    className, subroutineName, labels, deferred⟩ error reached hrun
  -- closing fails only when an open writer cannot be flushed
  cases closed <;> cases flushFails <;> cases hrun
  exact Error.blameless_io _

theorem blameless_finish : Blameless finish := by
  refine blameless_look fun compiler => ?_
  split
  · exact (blameless_unexpected _).bind fun _ => blameless_close
  · exact blameless_close

/-- A run that fails at a name fails at a place that its class rejects. -/
theorem compile_rejects {lexer : Lexer} {sink : Vm.Sink} {reached : Compiler} {error : Error}
    (hrun : compile (start lexer sink) = .error error reached) :
    error.Blameless ∨ ∃ offence name front behind,
      error = Offence.error offence reached.lexer.lineNumber name ∧
        RejectedAt offence name front behind ∧ ∀ rest, reached.Ahead rest →
          lexer.Yields (front ++ .identifier name :: (behind ++ rest)) := by
  rw [compile_eq, compileWithin_eq] at hrun
  rcases bind_error_cases hrun with hmove | ⟨_, moved, hmove, hrun⟩
  · exact .inl (blameless_advance _ _ _ hmove)
  rcases bind_error_cases hrun with hclass | ⟨_, finished, -, hfinish⟩
  · refine (classDeclaration_rejects (knows_of_start hmove) hclass).imp_right ?_
    rintro ⟨offence, name, front, behind, herror, hplace, hahead⟩
    exact ⟨offence, name, front, behind, herror, hplace,
      fun rest hrest => yields_of_advance hmove (hahead rest hrest)⟩
  · exact .inl (blameless_finish _ _ _ hfinish)

end Compiler

end Jack
