/-
Scopes: which variable a name stands for, read off a class tree.

The compiler keeps a table that grows while it reads. Here the same information
is a function of the tree: the variables of a tier in the order of declaration,
each with the number of earlier variables of its kind as its index. A class tree
is well scoped when no tier declares a name twice, every name that is used as a
variable is declared, and no call passes more arguments than a call may.

The last section ties the two together. `Represents` says that a symbol table
holds exactly the variables of two tiers; declaring a variable keeps it so, and
is refused exactly when the tier holds the name.
-/
import Mathlib.Data.List.Nodup
import Jack.Proofs.Syntax

set_option autoImplicit false

namespace Jack.Syntax

/-! ## Tiers -/

/-- A variable as it is declared, before it has an index. -/
structure Variable where
  name : String
  type : String
  kind : VarKind
  deriving DecidableEq, Repr

/-- Adds a variable behind those of a tier. Its index is the number of variables
of its kind before it, in 16 bits. -/
def addVariable (tier : List Symbol) (added : Variable) : List Symbol :=
  tier ++ [⟨added.name, added.type, added.kind, .ofNat (tier.countP (·.kind = added.kind))⟩]

/-- The variables of a tier, each with its index. -/
def numbered (vars : List Variable) : List Symbol := vars.foldl addVariable []

/-- The variables that one list of names declares. -/
def Declaration.vars (kind : VarKind) (declaration : Declaration) : List Variable :=
  declaration.names.map fun name => ⟨name, declaration.type.text, kind⟩

/-- The statics and fields of a class, in the order of declaration. -/
def ClassTree.vars (tree : ClassTree) : List Variable :=
  tree.declarations.flatMap fun declared => declared.declaration.vars declared.kind.varKind

/-- The arguments and locals of a subroutine, in the order of declaration. The
first argument of a method is the object it is called on. -/
def Subroutine.vars (className : String) (subroutine : Subroutine) : List Variable :=
  (if subroutine.kind = .method then [⟨"this", className, .argument⟩] else []) ++
    (subroutine.parameters.map fun parameter => ⟨parameter.name, parameter.type.text, .argument⟩) ++
      subroutine.locals.flatMap (Declaration.vars .localVar)

/-! ## Names in scope -/

/-- What the names in a subroutine body mean. -/
structure Scope where
  className : String
  /-- Statics and fields. -/
  classTier : List Symbol
  /-- Arguments and locals. -/
  subroutineTier : List Symbol

namespace Scope

/-- The variable that a name stands for: an argument or local before a static or
field. -/
def resolve? (scope : Scope) (name : String) : Option Symbol :=
  scope.subroutineTier.find? (·.name == name) <|> scope.classTier.find? (·.name == name)

/-- Whether a name is an argument or local of the subroutine or a static or field
of the class. -/
def Declares (scope : Scope) (name : String) : Prop :=
  ∃ symbol ∈ scope.subroutineTier ++ scope.classTier, symbol.name = name

theorem resolve?_eq_none_iff {scope : Scope} {name : String} :
    scope.resolve? name = none ↔ ¬ scope.Declares name := by
  rw [resolve?, Option.orElse_eq_orElse, Option.orElse_eq_or, Option.or_eq_none_iff,
    List.find?_eq_none, List.find?_eq_none, ← List.forall_mem_append]
  simp only [Declares, beq_iff_eq, not_exists, not_and]

theorem declares_iff {scope : Scope} {name : String} :
    scope.Declares name ↔ ∃ symbol, scope.resolve? name = some symbol := by
  rw [← Option.ne_none_iff_exists', ne_eq, resolve?_eq_none_iff, not_not]

/-- How many receivers a call in front of whose routine a name stands has: the
object that a variable refers to, and none for a class. -/
def receivers (scope : Scope) (owner : String) : Nat :=
  if (scope.resolve? owner).isSome then 1 else 0

end Scope

/-- The scope of a body. -/
def ClassTree.scope (tree : ClassTree) (subroutine : Subroutine) : Scope where
  className := tree.name
  classTier := numbered tree.vars
  subroutineTier := numbered (subroutine.vars tree.name)

/-! ## Well-scoped trees -/

/-- The largest number of values that a call may pass. -/
def argumentLimit : Nat := 65535

mutual

/-- Every variable of a term is declared and every call in it is small enough. -/
def Term.Scoped (scope : Scope) : Term → Prop
  | .integer _ => True
  | .string _ => True
  | .word _ => True
  | .var name => scope.Declares name
  | .element array index => scope.Declares array ∧ index.Scoped scope
  | .call call => call.Scoped scope
  | .group inner => inner.Scoped scope
  | .unary _ operand => operand.Scoped scope

/-- Every term of an expression is well scoped. -/
def Expression.Scoped (scope : Scope) : Expression → Prop
  | .chain first rest => first.Scoped scope ∧ rest.Scoped scope

/-- Every term behind the first one is well scoped. -/
def Operations.Scoped (scope : Scope) : Operations → Prop
  | .nil => True
  | .cons _ operand rest => operand.Scoped scope ∧ rest.Scoped scope

/-- The arguments of a call are well scoped and, with the receiver, not too many. -/
def Call.Scoped (scope : Scope) : Call → Prop
  | .bare _ arguments => arguments.Scoped scope ∧ arguments.length + 1 ≤ argumentLimit
  | .dotted owner _ arguments =>
    arguments.Scoped scope ∧ arguments.length + scope.receivers owner ≤ argumentLimit

/-- Every argument is well scoped. -/
def Arguments.Scoped (scope : Scope) : Arguments → Prop
  | .nil => True
  | .cons first rest => first.Scoped scope ∧ rest.Scoped scope

end

mutual

/-- Every variable of a statement is declared and every call in it is small enough. -/
def Statement.Scoped (scope : Scope) : Statement → Prop
  | .assign target value => scope.Declares target ∧ value.Scoped scope
  | .store target index value =>
    scope.Declares target ∧ index.Scoped scope ∧ value.Scoped scope
  | .ifThen condition block => condition.Scoped scope ∧ block.Scoped scope
  | .ifElse condition block otherwise =>
    condition.Scoped scope ∧ block.Scoped scope ∧ otherwise.Scoped scope
  | .loop condition body => condition.Scoped scope ∧ body.Scoped scope
  | .invoke call => call.Scoped scope
  | .exit none => True
  | .exit (some value) => value.Scoped scope

/-- Every statement of a block is well scoped. -/
def Block.Scoped (scope : Scope) : Block → Prop
  | .nil => True
  | .cons first rest => first.Scoped scope ∧ rest.Scoped scope

end

/-- No tier declares a name twice. -/
def DistinctNames (vars : List Variable) : Prop := (vars.map Variable.name).Nodup

/-- A class tree that keeps the rules on names and on the size of calls. -/
structure ClassTree.WellScoped (tree : ClassTree) : Prop where
  distinct : DistinctNames tree.vars
  distinct_in : ∀ subroutine ∈ tree.subroutines, DistinctNames (subroutine.vars tree.name)
  body_scoped : ∀ subroutine ∈ tree.subroutines, subroutine.body.Scoped (tree.scope subroutine)

/-! Whether a tree is well scoped can be computed. -/

instance (scope : Scope) (name : String) : Decidable (scope.Declares name) :=
  inferInstanceAs
    (Decidable (∃ symbol ∈ scope.subroutineTier ++ scope.classTier, symbol.name = name))

mutual

/-- Decides whether a term is well scoped. -/
def Term.decideScoped (scope : Scope) : (term : Term) → Decidable (term.Scoped scope)
  | .integer _ => .isTrue trivial
  | .string _ => .isTrue trivial
  | .word _ => .isTrue trivial
  | .var name => inferInstanceAs (Decidable (scope.Declares name))
  | .element array index =>
    @instDecidableAnd _ _ (inferInstanceAs (Decidable (scope.Declares array)))
      (index.decideScoped scope)
  | .call call => call.decideScoped scope
  | .group inner => inner.decideScoped scope
  | .unary _ operand => operand.decideScoped scope

/-- Decides whether an expression is well scoped. -/
def Expression.decideScoped (scope : Scope) :
    (expression : Expression) → Decidable (expression.Scoped scope)
  | .chain first rest => @instDecidableAnd _ _ (first.decideScoped scope) (rest.decideScoped scope)

/-- Decides whether the rest of an expression is well scoped. -/
def Operations.decideScoped (scope : Scope) :
    (operations : Operations) → Decidable (operations.Scoped scope)
  | .nil => .isTrue trivial
  | .cons _ operand rest =>
    @instDecidableAnd _ _ (operand.decideScoped scope) (rest.decideScoped scope)

/-- Decides whether a call is well scoped. -/
def Call.decideScoped (scope : Scope) : (call : Call) → Decidable (call.Scoped scope)
  | .bare _ arguments =>
    @instDecidableAnd _ _ (arguments.decideScoped scope) (Nat.decLe _ _)
  | .dotted _ _ arguments =>
    @instDecidableAnd _ _ (arguments.decideScoped scope) (Nat.decLe _ _)

/-- Decides whether arguments are well scoped. -/
def Arguments.decideScoped (scope : Scope) :
    (arguments : Arguments) → Decidable (arguments.Scoped scope)
  | .nil => .isTrue trivial
  | .cons first rest => @instDecidableAnd _ _ (first.decideScoped scope) (rest.decideScoped scope)

end

mutual

/-- Decides whether a statement is well scoped. -/
def Statement.decideScoped (scope : Scope) :
    (statement : Statement) → Decidable (statement.Scoped scope)
  | .assign target value =>
    @instDecidableAnd _ _ (inferInstanceAs (Decidable (scope.Declares target)))
      (value.decideScoped scope)
  | .store target index value =>
    @instDecidableAnd _ _ (inferInstanceAs (Decidable (scope.Declares target)))
      (@instDecidableAnd _ _ (index.decideScoped scope) (value.decideScoped scope))
  | .ifThen condition block =>
    @instDecidableAnd _ _ (condition.decideScoped scope) (block.decideScoped scope)
  | .ifElse condition block otherwise =>
    @instDecidableAnd _ _ (condition.decideScoped scope)
      (@instDecidableAnd _ _ (block.decideScoped scope) (otherwise.decideScoped scope))
  | .loop condition body =>
    @instDecidableAnd _ _ (condition.decideScoped scope) (body.decideScoped scope)
  | .invoke call => call.decideScoped scope
  | .exit none => .isTrue trivial
  | .exit (some value) => value.decideScoped scope

/-- Decides whether a block is well scoped. -/
def Block.decideScoped (scope : Scope) : (block : Block) → Decidable (block.Scoped scope)
  | .nil => .isTrue trivial
  | .cons first rest => @instDecidableAnd _ _ (first.decideScoped scope) (rest.decideScoped scope)

end

instance (scope : Scope) (block : Block) : Decidable (block.Scoped scope) :=
  block.decideScoped scope

instance (vars : List Variable) : Decidable (DistinctNames vars) :=
  inferInstanceAs (Decidable (vars.map Variable.name).Nodup)

instance (tree : ClassTree) : Decidable tree.WellScoped :=
  decidable_of_iff (DistinctNames tree.vars ∧
      (∀ sub ∈ tree.subroutines, DistinctNames (sub.vars tree.name)) ∧
      ∀ sub ∈ tree.subroutines, sub.body.Scoped (tree.scope sub))
    ⟨fun ⟨h, h', h''⟩ => ⟨h, h', h''⟩, fun ⟨h, h', h''⟩ => ⟨h, h', h''⟩⟩

/-! ## Scopes that grow -/

/-- A name in a tier with one more variable: the new variable if it has the name,
and otherwise what the name stood for before. -/
theorem find?_addVariable {tier : List Symbol} {added : Variable}
    (hfree : ∀ symbol ∈ tier, symbol.name ≠ added.name) (name : String) :
    (addVariable tier added).find? (·.name == name) =
      if added.name = name then
        some ⟨added.name, added.type, added.kind, .ofNat (tier.countP (·.kind = added.kind))⟩
      else tier.find? (·.name == name) := by
  rw [addVariable, List.find?_append]
  by_cases heq : added.name = name
  · have hnone : tier.find? (·.name == name) = none := by
      rw [List.find?_eq_none]
      intro symbol hmem
      simpa [← heq] using hfree symbol hmem
    simp [hnone, heq]
  · simp [heq]

namespace Scope

/-- The tier that variables of a kind are declared in. -/
def tier (scope : Scope) (kind : VarKind) : List Symbol :=
  if kind.isClassTier then scope.classTier else scope.subroutineTier

/-- A scope with one more variable. -/
def declare (scope : Scope) (added : Variable) : Scope :=
  if added.kind.isClassTier then
    { scope with classTier := addVariable scope.classTier added }
  else { scope with subroutineTier := addVariable scope.subroutineTier added }

/-- A scope with more variables. -/
def declareAll (scope : Scope) (vars : List Variable) : Scope := vars.foldl declare scope

/-- A scope without arguments and locals. -/
def enter (scope : Scope) : Scope := { scope with subroutineTier := [] }

/-- Whether the tier of a variable's kind has no variable of its name yet. -/
def Free (scope : Scope) (added : Variable) : Prop :=
  ∀ symbol ∈ scope.tier added.kind, symbol.name ≠ added.name

/-- Whether variables can be declared one after the other. -/
def Admits (scope : Scope) : List Variable → Prop
  | [] => True
  | first :: rest => scope.Free first ∧ (scope.declare first).Admits rest

theorem admits_append (scope : Scope) (first rest : List Variable) :
    scope.Admits (first ++ rest) ↔ scope.Admits first ∧ (scope.declareAll first).Admits rest := by
  induction first generalizing scope with
  | nil => simp [Admits, declareAll]
  | cons added others ih => simp [Admits, declareAll, ih, and_assoc]

theorem declareAll_append (scope : Scope) (first rest : List Variable) :
    scope.declareAll (first ++ rest) = (scope.declareAll first).declareAll rest := by
  rw [declareAll, declareAll, declareAll, List.foldl_append]

@[simp] theorem declare_className (scope : Scope) (added : Variable) :
    (scope.declare added).className = scope.className := by
  rw [declare]
  split <;> rfl

@[simp] theorem declareAll_className (scope : Scope) (vars : List Variable) :
    (scope.declareAll vars).className = scope.className := by
  induction vars generalizing scope with
  | nil => rfl
  | cons added rest ih => exact (ih _).trans (declare_className _ _)

@[simp] theorem enter_className (scope : Scope) : scope.enter.className = scope.className := rfl

/-- A variable is added to the tier of its kind. -/
theorem tier_declare {scope : Scope} {added : Variable} {kind : VarKind}
    (hkind : added.kind.isClassTier = kind.isClassTier) :
    (scope.declare added).tier kind = addVariable (scope.tier kind) added := by
  simp only [declare, tier, hkind]
  split <;> rfl

/-- Variables of one tier can be declared exactly when no name comes twice among
them and those that the tier has. -/
theorem admits_iff_nodup {scope : Scope} (kind : VarKind) {vars : List Variable}
    (hkind : ∀ added ∈ vars, added.kind.isClassTier = kind.isClassTier)
    (htier : ((scope.tier kind).map Symbol.name).Nodup) :
    scope.Admits vars ↔
      ((scope.tier kind).map Symbol.name ++ vars.map Variable.name).Nodup := by
  induction vars generalizing scope with
  | nil => simpa [Admits] using htier
  | cons added rest ih =>
    obtain ⟨hadded, hrest⟩ := List.forall_mem_cons.1 hkind
    have hnames : ((scope.declare added).tier kind).map Symbol.name =
        (scope.tier kind).map Symbol.name ++ [added.name] := by
      simp [tier_declare hadded, addVariable]
    have hfree : scope.Free added ↔ added.name ∉ (scope.tier kind).map Symbol.name := by
      simp [Free, tier, hadded]
    -- the first name is free just if the tier still has no name twice behind it
    have hstep : (((scope.declare added).tier kind).map Symbol.name).Nodup ↔ scope.Free added := by
      rw [hnames, hfree, List.nodup_append]
      simp only [List.nodup_singleton, true_and, List.mem_singleton, forall_eq, htier]
      exact ⟨fun h hmem => h _ hmem rfl, fun h name hmem heq => h (heq ▸ hmem)⟩
    rw [Admits, List.map_cons, ← List.singleton_append, ← List.append_assoc, ← hnames]
    constructor
    · rintro ⟨hfirst, hadmits⟩
      exact (ih hrest (hstep.2 hfirst)).1 hadmits
    · intro hnodup
      have hfirst := hstep.1 (List.Nodup.of_append_left hnodup)
      exact ⟨hfirst, (ih hrest (hstep.2 hfirst)).2 hnodup⟩

/-- Declaring class variables fills the class tier. -/
theorem declareAll_class {scope : Scope} {vars : List Variable}
    (hkind : ∀ added ∈ vars, added.kind.isClassTier = true) :
    scope.declareAll vars =
      { scope with classTier := vars.foldl addVariable scope.classTier } := by
  induction vars generalizing scope with
  | nil => rfl
  | cons added rest ih =>
    obtain ⟨hadded, hrest⟩ := List.forall_mem_cons.1 hkind
    rw [declareAll, List.foldl_cons, ← declareAll, ih hrest, declare, if_pos hadded,
      List.foldl_cons]

/-- Declaring arguments and locals fills the subroutine tier. -/
theorem declareAll_subroutine {scope : Scope} {vars : List Variable}
    (hkind : ∀ added ∈ vars, added.kind.isClassTier = false) :
    scope.declareAll vars =
      { scope with subroutineTier := vars.foldl addVariable scope.subroutineTier } := by
  induction vars generalizing scope with
  | nil => rfl
  | cons added rest ih =>
    obtain ⟨hadded, hrest⟩ := List.forall_mem_cons.1 hkind
    rw [declareAll, List.foldl_cons, ← declareAll, ih hrest, declare,
      if_neg (by simp [hadded]), List.foldl_cons]

end Scope

/-- The scope of a class before its first subroutine. -/
def ClassTree.classScope (tree : ClassTree) : Scope where
  className := tree.name
  classTier := numbered tree.vars
  subroutineTier := []

theorem ClassTree.isClassTier_of_mem {tree : ClassTree} {added : Variable}
    (hmem : added ∈ tree.vars) : added.kind.isClassTier = true := by
  simp only [ClassTree.vars, Declaration.vars, List.mem_flatMap, List.mem_map] at hmem
  obtain ⟨declared, _, _, _, rfl⟩ := hmem
  cases hkind : declared.kind <;> simp [ClassVarKind.varKind, VarKind.isClassTier]

theorem Subroutine.isClassTier_of_mem {className : String} {subroutine : Subroutine}
    {added : Variable} (hmem : added ∈ subroutine.vars className) :
    added.kind.isClassTier = false := by
  simp only [Subroutine.vars, List.mem_append] at hmem
  rcases hmem with (hmem | hmem) | hmem
  · split at hmem
    · rw [List.mem_singleton] at hmem
      rw [hmem]
      rfl
    · cases hmem
  · obtain ⟨_, _, rfl⟩ := List.mem_map.1 hmem
    rfl
  · obtain ⟨_, _, hmem⟩ := List.mem_flatMap.1 hmem
    obtain ⟨_, _, rfl⟩ := List.mem_map.1 hmem
    rfl

/-- The class tier is filled from nothing. -/
theorem ClassTree.declareAll_vars (tree : ClassTree) :
    (Scope.mk tree.name [] []).declareAll tree.vars = tree.classScope :=
  Scope.declareAll_class fun _ hmem => ClassTree.isClassTier_of_mem hmem

theorem ClassTree.admits_vars_iff (tree : ClassTree) :
    (Scope.mk tree.name [] []).Admits tree.vars ↔ DistinctNames tree.vars :=
  Scope.admits_iff_nodup .static
    (fun _ hmem => ClassTree.isClassTier_of_mem hmem) List.nodup_nil

/-- The subroutine tier is filled from nothing, whatever it held before. -/
theorem ClassTree.declareAll_subroutine_vars (tree : ClassTree) (subroutine : Subroutine)
    {scope : Scope} (hscope : scope.enter = tree.classScope) :
    scope.enter.declareAll (subroutine.vars tree.name) = tree.scope subroutine := by
  rw [hscope, Scope.declareAll_subroutine fun _ hmem => Subroutine.isClassTier_of_mem hmem]
  rfl

theorem ClassTree.admits_subroutine_vars_iff (tree : ClassTree) (subroutine : Subroutine) :
    tree.classScope.Admits (subroutine.vars tree.name) ↔
      DistinctNames (subroutine.vars tree.name) :=
  Scope.admits_iff_nodup .localVar
    (fun _ hmem => Subroutine.isClassTier_of_mem hmem) List.nodup_nil

end Jack.Syntax

/-! ## Tables that represent scopes -/

namespace Jack.SymbolTable

open Syntax

/-- A name that its tier holds is refused, and the table stays as it is. -/
theorem declare_of_contains {table : SymbolTable} {name type : String} {kind : VarKind}
    (hin : (table.tier kind).contains name = true) :
    declare name type kind table = .error (.duplicateName none name) table := by
  rw [declare, if_pos hin]

/-- Another name is taken with the counter of its kind as its index. -/
theorem declare_of_not_contains {table : SymbolTable} {name type : String} {kind : VarKind}
    (hin : ¬ (table.tier kind).contains name = true) :
    declare name type kind table =
      .ok ⟨name, type, kind, table.count kind⟩
        (table.insert ⟨name, type, kind, table.count kind⟩) := by
  rw [declare, if_neg hin]

/-- A table that holds exactly the variables of a scope. -/
structure Represents (table : SymbolTable) (scope : Scope) : Prop where
  find : ∀ kind name, (table.tier kind)[name]? = (scope.tier kind).find? (·.name == name)
  count : ∀ kind, table.count kind = .ofNat ((scope.tier kind).countP (·.kind = kind))

namespace Represents

variable {table : SymbolTable} {scope : Scope}

/-- A table without variables. -/
theorem empty (className : String) : Represents {} ⟨className, [], []⟩ where
  find kind name := by cases kind <;> simp [tier, Scope.tier]
  count kind := by cases kind <;> rfl

/-- A name stands for the same variable in the table and in the scope. -/
theorem resolve?_eq (h : Represents table scope) (name : String) :
    table.resolve? name = scope.resolve? name := by
  have hsub := h.find .localVar name
  have hclass := h.find .static name
  simp only [tier, Scope.tier, VarKind.isClassTier, if_true, Bool.false_eq_true, if_false]
    at hsub hclass
  rw [resolve?, Scope.resolve?, hsub, hclass]

/-- Starting a subroutine forgets the same variables on both sides. -/
theorem startSubroutine (h : Represents table scope) :
    Represents table.startSubroutine scope.enter where
  find kind name := by
    have hfind := h.find kind name
    cases kind <;> simp_all [tier, Scope.tier, SymbolTable.startSubroutine, Scope.enter,
      VarKind.isClassTier]
  count kind := by
    have hcount := h.count kind
    cases kind <;> simp_all [SymbolTable.count, Scope.tier, SymbolTable.startSubroutine,
      Scope.enter, VarKind.isClassTier]

/-- The tier of a kind holds a name exactly when the scope's tier does. -/
theorem contains_iff (h : Represents table scope) (added : Variable) :
    (table.tier added.kind).contains added.name = true ↔ ¬ scope.Free added := by
  rw [Std.TreeMap.contains_eq_isSome_getElem?, h.find added.kind added.name, List.find?_isSome]
  simp only [beq_iff_eq, Scope.Free, ne_eq, not_forall, not_not, exists_prop]

/-- The table and the scope after one more variable. -/
theorem insert (h : Represents table scope) {added : Variable} (hfree : scope.Free added) :
    Represents (table.insert ⟨added.name, added.type, added.kind, table.count added.kind⟩)
      (scope.declare added) where
  find kind name := by
    have hold := h.find kind name
    have hadd := find?_addVariable hfree name
    rw [← h.count added.kind] at hadd
    obtain ⟨addedName, addedType, addedKind⟩ := added
    cases addedKind <;> cases kind <;>
      simp_all [tier, Scope.tier, SymbolTable.insert, Scope.declare, VarKind.isClassTier,
        Std.TreeMap.getElem?_insert]
  count kind := by
    have hold := h.count kind
    obtain ⟨addedName, addedType, addedKind⟩ := added
    cases addedKind <;> cases kind <;>
      simp_all [SymbolTable.count, Scope.tier, SymbolTable.insert, Scope.declare,
        VarKind.isClassTier, addVariable]

/-- **Declaring.** A variable whose name is free in its tier is taken, and the table
goes on to represent the scope with the variable added. -/
theorem declare_ok (h : Represents table scope) {added : Variable} (hfree : scope.Free added) :
    ∃ symbol reached, declare added.name added.type added.kind table = .ok symbol reached ∧
      Represents reached (scope.declare added) :=
  ⟨_, _, declare_of_not_contains fun hin => (h.contains_iff added).1 hin hfree, h.insert hfree⟩

/-- A variable that is taken had a free name. -/
theorem of_declare_ok (h : Represents table scope) {added : Variable} {symbol : Symbol}
    {reached : SymbolTable}
    (hok : declare added.name added.type added.kind table = .ok symbol reached) :
    scope.Free added ∧ Represents reached (scope.declare added) := by
  by_cases hin : (table.tier added.kind).contains added.name = true
  · rw [declare_of_contains hin] at hok
    cases hok
  · rw [declare_of_not_contains hin] at hok
    cases hok
    have hfree : scope.Free added := by
      by_contra hheld
      exact hin ((h.contains_iff added).2 hheld)
    exact ⟨hfree, h.insert hfree⟩

end Represents

end Jack.SymbolTable
