/-
The stack discipline of the code of a class.

The code of an expression leaves one value more than it found, and that of a statement
leaves the stack as empty as it found it. So the reading of a block comes to its end
(`ClassTree.leveled_block`), and what the reading says of a position holds on every path
that comes there.

`Disciplined` collects what that means for a block as a whole. For its parts, the stack is
empty at both ends of every statement, wherever it is nested, and one value deeper behind
every expression than in front of it, wherever it is nested.
-/
import Jack.Proofs.Paths
import Jack.Proofs.AcceptedClass

set_option autoImplicit false

namespace Jack

/-! ## Statements and expressions -/

namespace Syntax

open Vm (Command CodeAt Leveled Path Place Visits blockBehind level levelAt levelAt_add
  levelAt_start level_append level_cons level_of_evaluates)

variable {scope : Scope}

theorem Expression.level_code (tree : Expression) (hscoped : tree.Scoped scope) (depth : Nat) :
    level (tree.code scope) depth = some (depth + 1) := by
  rw [level_of_evaluates tree.evaluates_code, tree.depthBehind_code hscoped]

theorem level_popName {target : String} (hdeclared : scope.Declares target) :
    level (scope.popName target) 1 = some 0 := by
  obtain ⟨symbol, hresolve⟩ := Scope.declares_iff.1 hdeclared
  unfold Scope.popName
  rw [hresolve]
  rfl

theorem level_storeCode {base index value : List Command} (hvalue : level value 0 = some 1)
    (hbase : level base 0 = some 1) (hindex : level index 1 = some 2) :
    level (storeCode base index value) 0 = some 0 := by
  have hparked : (Command.pop .temp 0).level 1 = some 0 := rfl
  rw [storeCode, level_append, hvalue, Option.bind_some, level_cons, hparked, Option.bind_some,
    level_append, level_append, hbase, Option.bind_some, hindex]
  rfl

theorem level_label (name : String) (rest : List Command) :
    level (.label name :: rest) 0 = level rest 0 := rfl

/-- A jump on a condition takes the value of the condition. -/
theorem level_guard (name : String) (rest : List Command) :
    level (.operation .not :: .ifGoto name :: rest) 1 = level rest 0 := rfl

theorem level_conditionalCode {condition block otherwise : List Command}
    (hcondition : level condition 0 = some 1) (hblock : level block 0 = some 0)
    (hother : level otherwise 0 = some 0) (number : Nat) :
    level (conditionalCode number condition block otherwise) 0 = some 0 := by
  have hbetween (name other : String) (rest : List Command) :
      level (.goto name :: .label other :: rest) 0 = level rest 0 := rfl
  rw [conditionalCode, level_label, level_append, hcondition, Option.bind_some, level_guard,
    level_append, hblock, Option.bind_some, hbetween, level_append, hother]
  rfl

theorem level_loopCode {condition body : List Command}
    (hcondition : level condition 0 = some 1) (hbody : level body 0 = some 0) (number : Nat) :
    level (loopCode number condition body) 0 = some 0 := by
  rw [loopCode, level_label, level_append, hcondition, Option.bind_some, level_guard,
    level_append, hbody]
  rfl

mutual

/-- A statement is read from an empty stack to an empty stack. -/
theorem Statement.level_code (tree : Statement) (hscoped : tree.Scoped scope) (number : Nat) :
    level (tree.code scope number) 0 = some 0 := by
  match tree with
  | .assign target value =>
    rw [Statement.code, level_append, value.level_code hscoped.2, Option.bind_some]
    exact level_popName hscoped.1
  | .store target index value =>
    have hbase : level (scope.pushName target) 0 = some 1 := by
      rw [level_of_evaluates (evaluates_pushName scope target), depthBehind_pushName hscoped.1]
    exact level_storeCode (value.level_code hscoped.2.2 0) hbase (index.level_code hscoped.2.1 1)
  -- at the labels of a block the level is that of the statement
  | .ifThen condition block =>
    exact level_conditionalCode (condition.level_code hscoped.1 0)
      (block.level_code hscoped.2 _) rfl number
  | .ifElse condition block otherwise =>
    exact level_conditionalCode (condition.level_code hscoped.1 0)
      (block.level_code hscoped.2.1 _) (otherwise.level_code hscoped.2.2 _) number
  | .loop condition body =>
    exact level_loopCode (condition.level_code hscoped.1 0) (body.level_code hscoped.2 _) number
  | .invoke call =>
    rw [Statement.code, level_append, level_of_evaluates call.evaluates_code,
      call.depthBehind_code hscoped]
    rfl
  | .exit none => rfl
  | .exit (some value) =>
    rw [Statement.code, level_append, value.level_code hscoped]
    rfl

theorem Block.level_code (tree : Block) (hscoped : tree.Scoped scope) (number : Nat) :
    level (tree.code scope number) 0 = some 0 := by
  match tree with
  | .nil => rfl
  | .cons first rest =>
    rw [Block.code, level_append, first.level_code hscoped.1, Option.bind_some,
      rest.level_code hscoped.2]

end

/-- The stack is empty behind the jump at the beginning of a conditional or loop. -/
theorem levelAt_behind_guard {program condition rest : List Command} {name other : String}
    {start position : Nat}
    (hcode : CodeAt program position
      (.label name :: (condition ++ .operation .not :: .ifGoto other :: rest)))
    (hcondition : level condition 0 = some 1) (hstart : start ≤ position)
    (hlevel : levelAt program start position = some 0) :
    levelAt program start (position + 1 + condition.length + 1 + 1) = some 0 := by
  have hguard : CodeAt program position
      (.label name :: (condition ++ [.operation .not, .ifGoto other])) := by
    obtain ⟨behind, hdrop⟩ := hcode
    exact ⟨rest ++ behind, by simpa using hdrop⟩
  have hread : level (.label name :: (condition ++ [.operation .not, .ifGoto other])) 0 = some 0 := by
    rw [level_label, level_append, hcondition, Option.bind_some, level_guard]
    rfl
  have hadd := levelAt_add hguard hstart
  rw [hlevel, Option.bind_some, hread] at hadd
  rw [← hadd]
  simp only [List.length_cons, List.length_append, List.length_nil]
  congr 1
  omega

mutual

/-- The stack is empty in front of every statement inside another one. -/
theorem Statement.levelAt_of_mem_sites {program : List Command} (tree : Statement)
    {start position number : Nat} (hcode : CodeAt program position (tree.code scope number))
    (hscoped : tree.Scoped scope) (hstart : start ≤ position)
    (hlevel : levelAt program start position = some 0) {site : Site}
    (hsite : site ∈ tree.sites scope position number) :
    start ≤ site.position ∧ levelAt program start site.position = some 0 := by
  -- the commands between the beginning of the statement and a block of it are a piece of
  -- code that is read to an empty stack
  match tree with
  | .ifThen condition block =>
    rcases List.mem_cons.1 hsite with rfl | hsite
    · exact ⟨hstart, hlevel⟩
    · exact block.levelAt_of_mem_sites hcode.tail.right.tail.tail.left hscoped.2 (by omega)
        (levelAt_behind_guard hcode (condition.level_code hscoped.1 0) hstart hlevel) hsite
  | .ifElse condition block otherwise =>
    rcases List.mem_cons.1 hsite with rfl | hsite
    · exact ⟨hstart, hlevel⟩
    have hguard := levelAt_behind_guard hcode (condition.level_code hscoped.1 0) hstart hlevel
    have hblock := hcode.tail.right.tail.tail
    rcases List.mem_append.1 hsite with hsite | hsite
    · exact block.levelAt_of_mem_sites hblock.left hscoped.2.1 (by omega) hguard hsite
    · have hfrom : start ≤ position + 1 + (condition.code scope).length + 1 + 1 := by omega
      have hbehind := levelAt_add hblock.left hfrom
      rw [hguard, Option.bind_some, block.level_code hscoped.2.1] at hbehind
      have hjump : CodeAt program _ [.goto _, .label _] := hblock.right.left
      have hlabel := levelAt_add hjump (Nat.le_add_right_of_le hfrom)
      rw [hbehind] at hlabel
      exact otherwise.levelAt_of_mem_sites hblock.right.tail.tail.left hscoped.2.2 (by omega)
        hlabel hsite
  | .loop condition body =>
    rcases List.mem_cons.1 hsite with rfl | hsite
    · exact ⟨hstart, hlevel⟩
    · exact body.levelAt_of_mem_sites hcode.tail.right.tail.tail.left hscoped.2 (by omega)
        (levelAt_behind_guard hcode (condition.level_code hscoped.1 0) hstart hlevel) hsite
  | .assign _ _ =>
    rw [List.mem_singleton.1 hsite]
    exact ⟨hstart, hlevel⟩
  | .store _ _ _ =>
    rw [List.mem_singleton.1 hsite]
    exact ⟨hstart, hlevel⟩
  | .invoke _ =>
    rw [List.mem_singleton.1 hsite]
    exact ⟨hstart, hlevel⟩
  | .exit _ =>
    rw [List.mem_singleton.1 hsite]
    exact ⟨hstart, hlevel⟩

theorem Block.levelAt_of_mem_sites {program : List Command} (tree : Block)
    {start position number : Nat} (hcode : CodeAt program position (tree.code scope number))
    (hscoped : tree.Scoped scope) (hstart : start ≤ position)
    (hlevel : levelAt program start position = some 0) {site : Site}
    (hsite : site ∈ tree.sites scope position number) :
    start ≤ site.position ∧ levelAt program start site.position = some 0 := by
  match tree with
  | .nil => exact absurd hsite List.not_mem_nil
  | .cons first rest =>
    rcases List.mem_append.1 hsite with hsite | hsite
    · exact first.levelAt_of_mem_sites hcode.left hscoped.1 hstart hlevel hsite
    · have hbehind := levelAt_add hcode.left hstart
      rw [hlevel, Option.bind_some, first.level_code hscoped.1] at hbehind
      exact rest.levelAt_of_mem_sites hcode.right hscoped.2 (Nat.le_add_right_of_le hstart)
        hbehind hsite

end

/-! ## Where expressions stand -/

/-- An expression with the place of its commands. -/
structure ExpressionSite where
  position : Nat
  expression : Expression

mutual

/-- The sites of the expressions in a term. -/
def Term.expressionSites (scope : Scope) (position : Nat) : Term → List ExpressionSite
  | .integer _ => []
  | .string _ => []
  | .word _ => []
  | .var _ => []
  | .element array index =>
    index.expressionSites scope (position + (scope.pushName array).length)
  | .call call => call.expressionSites scope position
  | .group inner => inner.expressionSites scope position
  | .unary _ operand => operand.expressionSites scope position

/-- The sites of an expression and of all expressions in it. -/
def Expression.expressionSites (scope : Scope) (position : Nat) :
    Expression → List ExpressionSite
  | .chain first rest =>
    ⟨position, .chain first rest⟩ :: (first.expressionSites scope position ++
      rest.expressionSites scope (position + (first.code scope).length))

/-- The sites of the expressions behind the first term of one. -/
def Operations.expressionSites (scope : Scope) (position : Nat) :
    Operations → List ExpressionSite
  | .nil => []
  | .cons _ operand rest =>
    operand.expressionSites scope position ++
      rest.expressionSites scope (position + (operand.code scope).length + 1)

/-- The sites of the expressions in a call. -/
def Call.expressionSites (scope : Scope) (position : Nat) : Call → List ExpressionSite
  | .bare _ arguments => arguments.expressionSites scope (position + 1)
  | .dotted owner _ arguments =>
    arguments.expressionSites scope (position + scope.receivers owner)

/-- The sites of the expressions in arguments. -/
def Arguments.expressionSites (scope : Scope) (position : Nat) :
    Arguments → List ExpressionSite
  | .nil => []
  | .cons first rest =>
    first.expressionSites scope position ++
      rest.expressionSites scope (position + (first.code scope).length)

end

/-- The sites of the expressions of a statement, those of the statements in it left out. -/
def Statement.expressionSites (scope : Scope) (position : Nat) :
    Statement → List ExpressionSite
  | .assign _ value => value.expressionSites scope position
  | .store target index value =>
    value.expressionSites scope position ++
      index.expressionSites scope
        (position + (value.code scope).length + 1 + (scope.pushName target).length)
  | .ifThen condition _ => condition.expressionSites scope (position + 1)
  | .ifElse condition _ _ => condition.expressionSites scope (position + 1)
  | .loop condition _ => condition.expressionSites scope (position + 1)
  | .invoke call => call.expressionSites scope position
  | .exit none => []
  | .exit (some value) => value.expressionSites scope position

/-- The commands of an expression stand at its site, and it is well scoped. -/
def ExpressionSite.Holds (program : List Command) (scope : Scope) (site : ExpressionSite) : Prop :=
  CodeAt program site.position (site.expression.code scope) ∧ site.expression.Scoped scope

mutual

theorem Term.holds_of_mem_sites {program : List Command} (tree : Term) {position : Nat}
    (hcode : CodeAt program position (tree.code scope)) (hscoped : tree.Scoped scope)
    {site : ExpressionSite} (hsite : site ∈ tree.expressionSites scope position) :
    site.Holds program scope := by
  match tree with
  | .integer _ => exact absurd hsite List.not_mem_nil
  | .string _ => exact absurd hsite List.not_mem_nil
  | .word _ => exact absurd hsite List.not_mem_nil
  | .var _ => exact absurd hsite List.not_mem_nil
  | .element array index => exact index.holds_of_mem_sites hcode.left.right hscoped.2 hsite
  | .call invoked => exact invoked.holds_of_mem_sites hcode hscoped hsite
  | .group inner => exact inner.holds_of_mem_sites hcode hscoped hsite
  | .unary operator operand => exact operand.holds_of_mem_sites hcode.left hscoped hsite

theorem Expression.holds_of_mem_sites {program : List Command} (tree : Expression)
    {position : Nat} (hcode : CodeAt program position (tree.code scope))
    (hscoped : tree.Scoped scope) {site : ExpressionSite}
    (hsite : site ∈ tree.expressionSites scope position) : site.Holds program scope := by
  match tree with
  | .chain first rest =>
    rcases List.mem_cons.1 hsite with rfl | hsite
    · exact ⟨hcode, hscoped⟩
    rcases List.mem_append.1 hsite with hsite | hsite
    · exact first.holds_of_mem_sites hcode.left hscoped.1 hsite
    · exact rest.holds_of_mem_sites hcode.right hscoped.2 hsite

theorem Operations.holds_of_mem_sites {program : List Command} (tree : Operations)
    {position : Nat} (hcode : CodeAt program position (tree.code scope))
    (hscoped : tree.Scoped scope) {site : ExpressionSite}
    (hsite : site ∈ tree.expressionSites scope position) : site.Holds program scope := by
  match tree with
  | .nil => exact absurd hsite List.not_mem_nil
  | .cons operator operand rest =>
    rcases List.mem_append.1 hsite with hsite | hsite
    · exact operand.holds_of_mem_sites hcode.left hscoped.1 hsite
    · exact rest.holds_of_mem_sites hcode.right.tail hscoped.2 hsite

theorem Call.holds_of_mem_sites {program : List Command} (tree : Call) {position : Nat}
    (hcode : CodeAt program position (tree.code scope)) (hscoped : tree.Scoped scope)
    {site : ExpressionSite} (hsite : site ∈ tree.expressionSites scope position) :
    site.Holds program scope := by
  match tree with
  | .bare routine list => exact list.holds_of_mem_sites hcode.tail.left hscoped.1 hsite
  | .dotted owner routine list =>
    -- the arguments stand behind the receiver, if the owner is a variable
    rw [Call.expressionSites, Scope.receivers] at hsite
    unfold Call.code at hcode
    cases hresolve : scope.resolve? owner with
    | none =>
      rw [hresolve] at hsite hcode
      exact list.holds_of_mem_sites hcode.left hscoped.1 hsite
    | some symbol =>
      rw [hresolve] at hsite hcode
      exact list.holds_of_mem_sites hcode.tail.left hscoped.1 hsite

theorem Arguments.holds_of_mem_sites {program : List Command} (tree : Arguments)
    {position : Nat} (hcode : CodeAt program position (tree.code scope))
    (hscoped : tree.Scoped scope) {site : ExpressionSite}
    (hsite : site ∈ tree.expressionSites scope position) : site.Holds program scope := by
  match tree with
  | .nil => exact absurd hsite List.not_mem_nil
  | .cons first rest =>
    rcases List.mem_append.1 hsite with hsite | hsite
    · exact first.holds_of_mem_sites hcode.left hscoped.1 hsite
    · exact rest.holds_of_mem_sites hcode.right hscoped.2 hsite

end

theorem Statement.holds_of_mem_sites {program : List Command} {tree : Statement}
    {position number : Nat} (hcode : CodeAt program position (tree.code scope number))
    (hscoped : tree.Scoped scope) {site : ExpressionSite}
    (hsite : site ∈ tree.expressionSites scope position) : site.Holds program scope := by
  match tree with
  | .assign target value => exact value.holds_of_mem_sites hcode.left hscoped.2 hsite
  | .store target index value =>
    rcases List.mem_append.1 hsite with hsite | hsite
    · exact value.holds_of_mem_sites hcode.left hscoped.2.2 hsite
    · exact index.holds_of_mem_sites hcode.right.tail.left.right hscoped.2.1 hsite
  | .ifThen condition block => exact condition.holds_of_mem_sites hcode.tail.left hscoped.1 hsite
  | .ifElse condition block otherwise =>
    exact condition.holds_of_mem_sites hcode.tail.left hscoped.1 hsite
  | .loop condition body => exact condition.holds_of_mem_sites hcode.tail.left hscoped.1 hsite
  | .invoke call => exact call.holds_of_mem_sites hcode.left hscoped hsite
  | .exit none => exact absurd hsite List.not_mem_nil
  | .exit (some value) => exact value.holds_of_mem_sites hcode.left hscoped hsite

/-! ## Blocks of a class -/

/-- The body of every subroutine is well scoped. -/
theorem ClassTree.WellScoped.body_of_split {tree : ClassTree} {before after : List Subroutine}
    {subroutine : Subroutine} (hscoped : tree.WellScoped)
    (hsplit : tree.subroutines = before ++ subroutine :: after) :
    subroutine.body.Scoped (tree.scope subroutine) := by
  apply hscoped.body_scoped
  rw [hsplit]
  exact List.mem_append_right before List.mem_cons_self

/-- A block is read from its `function` command to its end. -/
theorem ClassTree.leveled_block {tree : ClassTree} {before after : List Subroutine}
    {subroutine : Subroutine} (hscoped : tree.WellScoped)
    (hsplit : tree.subroutines = before ++ subroutine :: after) :
    Leveled tree.code (tree.blockPosition before + 1)
      (tree.blockBody (labelsOf before) subroutine) where
  codeAt := (tree.codeAt_block hsplit).tail
  level_ne_none := by
    have hentry : level (entryCode (counted tree.fieldCount) subroutine.kind) 0 = some 0 := by
      cases subroutine.kind <;> rfl
    rw [ClassTree.blockBody, level_append, hentry, Option.bind_some,
      subroutine.body.level_code (hscoped.body_of_split hsplit)]
    exact Option.some_ne_none 0
  jumpsInside := tree.jumpsInside_blockBody (labelsOf before) subroutine
  unique := tree.nodup_labelNames
  function_behind command hcommand := by
    apply tree.exists_function_behind hsplit
    rw [ClassTree.subroutineCode_eq, List.length_cons, ← Nat.add_assoc, Nat.add_right_comm]
    exact hcommand

/-- The block of a subroutine is what stands between its `function` command and the next
one. -/
theorem ClassTree.blockBehind_eq {tree : ClassTree} {before after : List Subroutine}
    {subroutine : Subroutine} (hscoped : tree.WellScoped)
    (hsplit : tree.subroutines = before ++ subroutine :: after) :
    blockBehind tree.code (tree.blockPosition before) =
      tree.blockBody (labelsOf before) subroutine := by
  have hleveled := tree.leveled_block hscoped hsplit
  have hdrop : tree.code.drop (tree.blockPosition before + 1) =
      tree.blockBody (labelsOf before) subroutine ++
        tree.codeFrom (labelsOf before + subroutine.body.labels) after := by
    rw [tree.code_eq_around hsplit, ClassTree.blockPosition, ← List.drop_drop, List.drop_left]
    rfl
  have hbody : ∀ command ∈ tree.blockBody (labelsOf before) subroutine,
      command.functionName?.isNone = true := by
    intro command hmem
    rw [Vm.functionName?_of_level hleveled.level_ne_none hmem]
    rfl
  rw [blockBehind, hdrop, List.takeWhile_append_of_pos hbody]
  cases after with
  | nil => exact List.append_nil _
  | cons next others => exact List.append_nil _

/-- Every `function` command begins the block of a subroutine. -/
theorem ClassTree.exists_block_of_function {tree : ClassTree} (hscoped : tree.WellScoped)
    {start count : Nat} {name : String}
    (hfunction : tree.code[start]? = some (.function name count)) :
    ∃ before subroutine after, tree.subroutines = before ++ subroutine :: after ∧
      start = tree.blockPosition before ∧ name = tree.name ++ "." ++ subroutine.name ∧
      count = counted subroutine.localCount := by
  obtain ⟨before, subroutine, after, place, hsplit, hposition, hcommand⟩ :=
    ClassTree.exists_block hfunction
  refine ⟨before, subroutine, after, hsplit, ?_⟩
  cases place with
  | zero =>
    obtain ⟨hname, hcount⟩ := Command.function.inj (Option.some.inj hcommand)
    exact ⟨hposition, hname.symm, hcount.symm⟩
  | succ place =>
    -- no command behind the first one of a block is a `function` command
    have hmem : .function name count ∈ tree.blockBody (labelsOf before) subroutine :=
      List.mem_of_getElem? hcommand
    have hnone := Vm.functionName?_of_level (tree.leveled_block hscoped hsplit).level_ne_none hmem
    cases hnone

/-- The stack is empty at both ends of every statement of a block. -/
theorem ClassTree.depth_of_mem_sites {tree : ClassTree} {before after : List Subroutine}
    {subroutine : Subroutine} (hscoped : tree.WellScoped)
    (hsplit : tree.subroutines = before ++ subroutine :: after) {site : Site}
    (hsite : site ∈ subroutine.body.sites (tree.scope subroutine)
      (tree.bodyPosition before subroutine) (labelsOf before))
    {place : Place} (hvisits : Visits tree.code (tree.blockPosition before) place)
    (hplace : place.position = site.position ∨ place.position =
      site.position + (site.statement.code (tree.scope subroutine) site.number).length) :
    place.depth = 0 := by
  have hbody := hscoped.body_of_split hsplit
  have hcode := tree.codeAt_body hsplit
  have hleveled := tree.leveled_block hscoped hsplit
  have hon := (hleveled.onLevel_of_path hvisits).levelAt_eq
  -- the body begins behind the commands of the entry, which leave nothing on the stack
  have hentry : levelAt tree.code (tree.blockPosition before + 1)
      (tree.bodyPosition before subroutine) = some 0 := by
    have hadd := levelAt_add hleveled.codeAt.left (Nat.le_refl _)
    rw [levelAt_start, Option.bind_some] at hadd
    refine hadd.trans ?_
    cases subroutine.kind <;> rfl
  have hbehind : tree.blockPosition before + 1 ≤ tree.bodyPosition before subroutine :=
    Nat.le_add_right _ _
  obtain ⟨hfrom, hfront⟩ :=
    subroutine.body.levelAt_of_mem_sites hcode hbody hbehind hentry hsite
  obtain ⟨hstatement, hwell⟩ := subroutine.body.spec_of_mem_sites hcode hbody hsite
  rcases hplace with hplace | hplace
  · rw [hplace, hfront] at hon
    exact (Option.some.inj hon).symm
  · rw [hplace, levelAt_add hstatement hfrom, hfront, Option.bind_some,
      site.statement.level_code hwell] at hon
    exact (Option.some.inj hon).symm

/-- The code of every expression of a block leaves one value more than it found. -/
theorem ClassTree.depth_behind_expression {tree : ClassTree} {before after : List Subroutine}
    {subroutine : Subroutine} (hscoped : tree.WellScoped)
    (hsplit : tree.subroutines = before ++ subroutine :: after) {site : ExpressionSite}
    (hsite : site.Holds tree.code (tree.scope subroutine)) {depth : Nat}
    (hvisits : Visits tree.code (tree.blockPosition before) ⟨site.position, depth⟩) :
    Path tree.code ⟨site.position, depth⟩
        ⟨site.position + (site.expression.code (tree.scope subroutine)).length, depth + 1⟩ ∧
      ∀ behind, Visits tree.code (tree.blockPosition before)
        ⟨site.position + (site.expression.code (tree.scope subroutine)).length, behind⟩ →
        behind = depth + 1 := by
  obtain ⟨hcode, hwell⟩ := hsite
  have hleveled := tree.leveled_block hscoped hsplit
  refine ⟨.of_evaluates hcode site.expression.evaluates_code
    (site.expression.depthBehind_code hwell depth), ?_⟩
  intro behind hbehind
  have hon := hleveled.onLevel_of_path hvisits
  have hend := (hleveled.onLevel_of_path hbehind).levelAt_eq
  rw [levelAt_add hcode hon.le_position, hon.levelAt_eq, Option.bind_some,
    site.expression.level_code hwell] at hend
  exact (Option.some.inj hend).symm

end Syntax

/-! ## Accepted classes -/

open Syntax
open Vm (Visits Path Disciplined blockBehind)

/-- **Stack discipline.** In the output of an accepted class, every `function` command begins
the block of a subroutine. On every path through the block no command lacks values, the
stack is empty at every label and at both ends of every statement, the code of every
expression leaves one value more than it found, and every `return` finds one value. -/
theorem compileText_keeps_stack_discipline {source text : String}
    (hok : compileText source = .ok text) :
    ∃ tree : ClassTree, HasTokens source tree.tokens ∧ text = lines tree.code ∧
      ∀ start name count, tree.code[start]? = some (.function name count) →
        ∃ before subroutine after, tree.subroutines = before ++ subroutine :: after ∧
          start = tree.blockPosition before ∧
          Disciplined tree.code start ((blockBehind tree.code start).length + 1) ∧
          ∀ site ∈ subroutine.body.sites (tree.scope subroutine)
              (tree.bodyPosition before subroutine) (labelsOf before),
            (∀ place, Visits tree.code start place →
              place.position = site.position ∨ place.position = site.position +
                (site.statement.code (tree.scope subroutine) site.number).length →
              place.depth = 0) ∧
            ∀ inner ∈ site.statement.expressionSites (tree.scope subroutine) site.position,
              ∀ depth, Visits tree.code start ⟨inner.position, depth⟩ →
                Path tree.code ⟨inner.position, depth⟩ ⟨inner.position +
                  (inner.expression.code (tree.scope subroutine)).length, depth + 1⟩ ∧
                ∀ behind, Visits tree.code start ⟨inner.position +
                    (inner.expression.code (tree.scope subroutine)).length, behind⟩ →
                  behind = depth + 1 := by
  obtain ⟨tree, hscoped, htokens, htext⟩ := exists_tree_of_compileText hok
  refine ⟨tree, htokens, htext, ?_⟩
  intro start name count hfunction
  obtain ⟨before, subroutine, after, hsplit, rfl, -, -⟩ :=
    tree.exists_block_of_function hscoped hfunction
  have hdisciplined := (tree.leveled_block hscoped hsplit).disciplined
  rw [← tree.blockBehind_eq hscoped hsplit] at hdisciplined
  refine ⟨before, subroutine, after, hsplit, rfl, hdisciplined, ?_⟩
  intro site hsite
  -- at the ends of statements, and then inside them at the ends of expressions
  refine ⟨?_, ?_⟩
  · intro place hvisits hplace
    exact tree.depth_of_mem_sites hscoped hsplit hsite hvisits hplace
  · intro inner hinner depth hvisits
    obtain ⟨hcode, hwell⟩ := subroutine.body.spec_of_mem_sites (tree.codeAt_body hsplit)
      (hscoped.body_of_split hsplit) hsite
    exact tree.depth_behind_expression hscoped hsplit
      (Statement.holds_of_mem_sites hcode hwell hinner) hvisits

/-- A subroutine that fills an array from its last element on. -/
def fillingSubroutine : Subroutine where
  kind := .function
  result := some .int
  name := "f"
  parameters := [⟨.int, "n"⟩]
  locals := []
  body :=
    .cons (.loop (.chain (.var "n") (.cons .gt (.integer 0) .nil))
      (.cons (.store "a" (.chain (.var "n") (.cons .sub (.integer 1) .nil))
        (.chain (.call (.dotted "A" "f" (.cons (.chain (.var "n") .nil) .nil))) .nil)) .nil))
      (.cons (.exit (some (.chain (.element "a" (.chain (.integer 0) .nil)) .nil))) .nil)

/-- The class of the subroutine that fills. -/
def fillingTree : ClassTree where
  name := "A"
  declarations := [⟨.static, ⟨.named "Array", "a", []⟩⟩]
  subroutines := [fillingSubroutine]

/-- The class as it is written. -/
def fillingSource : String :=
  "class A { static Array a; function int f(int n) { while (n > 0) { let a[n - 1] = A.f(n); }
    return a[0]; } }"

theorem hasTokens_fillingSource : HasTokens fillingSource fillingTree.tokens :=
  .of_pulled 47 (by decide +kernel)

/-- The stack is empty at both labels of the loop, however often it goes round, and there is
one value at the `return`. -/
theorem compileText_discipline_of_filling :
    compileText fillingSource = .ok (lines fillingTree.code) ∧
    fillingTree.code[0]? = some (.function "A.f" 0) ∧
    fillingTree.code[1]? = some (.label "WHILE_START_0") ∧
    fillingTree.code[19]? = some (.label "WHILE_END_0") ∧
    fillingTree.code[25]? = some .ret ∧
    (∀ depth, Visits fillingTree.code 0 ⟨1, depth⟩ → depth = 0) ∧
    (∀ depth, Visits fillingTree.code 0 ⟨19, depth⟩ → depth = 0) ∧
    (∀ depth, Visits fillingTree.code 0 ⟨25, depth⟩ → depth = 1) := by
  have hcompiled : compileText fillingSource = .ok (lines fillingTree.code) :=
    compileSource_of_yields fillingTree (by decide)
      (Lexer.yields_iff_results.2 hasTokens_fillingSource)
  obtain ⟨tree, htokens, -, hblocks⟩ := compileText_keeps_stack_discipline hcompiled
  obtain rfl : fillingTree = tree := htokens.tree_unique hasTokens_fillingSource
  obtain ⟨_, _, _, -, -, hdisciplined, -⟩ := hblocks 0 "A.f" 0 (by decide)
  have hstart : fillingTree.code[1]? = some (.label "WHILE_START_0") := by decide
  have hend : fillingTree.code[19]? = some (.label "WHILE_END_0") := by decide
  have hreturn : fillingTree.code[25]? = some .ret := by decide
  refine ⟨hcompiled, by decide, hstart, hend, hreturn, ?_, ?_, ?_⟩
  · intro depth hvisits
    exact hdisciplined.at_label _ _ hvisits hstart
  · intro depth hvisits
    exact hdisciplined.at_label _ _ hvisits hend
  · intro depth hvisits
    exact hdisciplined.at_return _ hvisits hreturn

end Jack
