/-
Statements are compiled to the translation of their trees.

The same walk as for expressions, with two additions. A conditional or loop takes
a number before anything else, so the commands of a statement depend on how many
numbers were taken before it; `Reached` counts them. An assignment to an array
element captures the commands of its index and emits them later, which puts them
where the translation has them.

Behind a statement there must not be an `else`, or a conditional without one would
go on. Blocks always end at a closing brace.
-/
import Jack.Proofs.CompiledExpression

set_option autoImplicit false

namespace Jack

open Vm (Command)

namespace Syntax

/-- The kind of a statement. -/
def Statement.kind : Statement → Compiler.StatementKind
  | .assign _ _ => .assignment
  | .store _ _ _ => .assignment
  | .ifThen _ _ => .conditional
  | .ifElse _ _ _ => .conditional
  | .loop _ _ => .loop
  | .invoke _ => .invocation
  | .exit _ => .exit

/-- A statement begins with the keyword of its kind. -/
theorem Statement.exists_tokens_eq (tree : Statement) : ∃ keyword tail,
    tree.tokens = .keyword keyword :: tail ∧ keyword ≠ .elseKw ∧
      Compiler.statementKind? (.keyword keyword) = some tree.kind := by
  cases tree with
  | exit value =>
    cases value <;> exact ⟨_, _, rfl, by decide, rfl⟩
  | _ => exact ⟨_, _, rfl, by decide, rfl⟩

/-- No statement of a block begins with `else`, nor does what closes the block. -/
theorem Block.head_ne_else (tree : Block) (rest : List Token) :
    (tree.tokens ++ .symbol '}' :: rest).head? ≠ some (.keyword .elseKw) := by
  cases tree with
  | nil => simp [Block.tokens]
  | cons first others =>
    obtain ⟨keyword, tail, htokens, helse, _⟩ := first.exists_tokens_eq
    simp [Block.tokens, htokens, helse]

end Syntax

namespace Compiler

open Syntax

/-! ## The kinds of statement

Each rule, given how the blocks inside it go. -/

section Rules

variable {scope : Scope} {budget : Nat} {compiler : Compiler} {rest : List Token}

theorem freshLabel_reached (hahead : compiler.Ahead rest) :
    ∃ reached, freshLabel compiler = .ok (toString compiler.labels) reached ∧
      Reached compiler [] 1 rest reached := by
  refine ⟨{ compiler with labels := compiler.labels + 1 }, rfl, ?_, ?_⟩
  · rw [emitted_nil]
  · cases rest <;> exact hahead

/-- The value and the semicolon of an assignment. -/
theorem assigned_reached (value : Expression) (hready : compiler.Ready scope)
    (hscoped : value.Scoped scope) (hbudget : value.tokens.length ≤ budget)
    (hahead : compiler.Ahead (.symbol '=' :: (value.tokens ++ .symbol ';' :: rest))) :
    ∃ equal evaluated reached,
      expectSymbol '=' compiler = .ok () equal ∧
      expression budget equal = .ok () evaluated ∧
      expectSymbol ';' evaluated = .ok () reached ∧
      Reached compiler (value.code scope) 0 rest reached := by
  obtain ⟨equal, hequal, hwalkEqual⟩ := expect_reached hahead
  obtain ⟨evaluated, hvalue, hwalkValue⟩ := expression_reached value budget
    (hready.after hwalkEqual) hscoped hbudget (endsExpression_of_closing (by simp) rest)
    hwalkEqual.ahead
  obtain ⟨reached, hsemicolon, hwalkSemicolon⟩ := expect_reached hwalkValue.ahead
  refine ⟨equal, evaluated, reached, hequal, hvalue, hsemicolon, ?_⟩
  simpa using (hwalkEqual.trans hwalkValue).trans hwalkSemicolon

/-- `let target = value;` -/
theorem assignment_reached_assign (target : String) (value : Expression)
    (hready : compiler.Ready scope) (hscoped : (Statement.assign target value).Scoped scope)
    (hbudget : (Statement.assign target value).tokens.length ≤ budget)
    (hahead : compiler.Ahead ((Statement.assign target value).tokens ++ rest)) :
    ∃ reached, assignment budget compiler = .ok () reached ∧
      Reached compiler ((Statement.assign target value).code scope compiler.labels) 0 rest
        reached := by
  simp only [Statement.tokens, List.length_cons, List.length_append, List.cons_append,
    List.append_assoc] at hbudget hahead
  obtain ⟨behindLet, hlet, hwalkLet⟩ := advance_reached hahead
  obtain ⟨named, hname, hwalkName⟩ := name_reached hwalkLet.ahead
  have hreadyNamed := (hready.after hwalkLet).after hwalkName
  obtain ⟨symbol, hresolve, hlookup⟩ := lookup_eq hreadyNamed hscoped.1
  have hvalueBudget : value.tokens.length ≤ budget := by omega
  obtain ⟨equal, evaluated, closed, hequal, hvalue, hsemicolon, hwalkValue⟩ :=
    assigned_reached value hreadyNamed hscoped.2 hvalueBudget hwalkName.ahead
  obtain ⟨reached, hpop, hwalkPop⟩ :=
    emit_reached (hreadyNamed.after hwalkValue).writer_open hwalkValue.ahead (popOf symbol)
  -- behind the name comes no bracket, so the rule takes its second half
  refine ⟨reached, ?_, ?_⟩
  · rw [assignment, move_eq, bind_ok hlet, bind_ok hname, still_eq, bind_ok hlookup, atSymbol_bind,
      hwalkName.ahead.1, if_neg (by simp), bind_ok hequal, bind_ok hvalue, bind_ok hsemicolon]
    exact hpop
  · rw [Statement.code, Scope.popName, hresolve]
    exact ((hwalkLet.trans hwalkName).trans hwalkValue).trans hwalkPop

/-- `let target[index] = value;` The index is captured and emitted behind the value. -/
theorem assignment_reached_store (target : String) (index value : Expression)
    (hready : compiler.Ready scope) (hscoped : (Statement.store target index value).Scoped scope)
    (hbudget : (Statement.store target index value).tokens.length ≤ budget)
    (hahead : compiler.Ahead ((Statement.store target index value).tokens ++ rest)) :
    ∃ reached, assignment budget compiler = .ok () reached ∧
      Reached compiler ((Statement.store target index value).code scope compiler.labels) 0 rest
        reached := by
  simp only [Statement.tokens, List.length_cons, List.length_append, List.cons_append,
    List.append_assoc] at hbudget hahead
  obtain ⟨behindLet, hlet, hwalkLet⟩ := advance_reached hahead
  obtain ⟨named, hname, hwalkName⟩ := name_reached hwalkLet.ahead
  have hreadyNamed := (hready.after hwalkLet).after hwalkName
  obtain ⟨symbol, hresolve, hlookup⟩ := lookup_eq hreadyNamed hscoped.1
  -- the captured action starts from a state with the same tokens and the same scope
  obtain ⟨captured, hdefer, hwalkDefer⟩ := defer_reached hwalkName.ahead
    (fun inside hsymbols hclass hwriter haheadInside =>
      between_reached haheadInside (fun open_ hopen => expression_reached index budget
        (Ready.after ⟨hsymbols ▸ hreadyNamed.symbols, hclass.trans hreadyNamed.className_eq,
          hwriter ▸ hreadyNamed.writer_open⟩ hopen)
        hscoped.2.1 (by omega) (endsExpression_of_closing (by simp) _) hopen.ahead))
  have hreadyCaptured := hreadyNamed.after hwalkDefer
  have hvalueBudget : value.tokens.length ≤ budget := by omega
  obtain ⟨equal, evaluated, closed, hequal, hvalue, hsemicolon, hwalkValue⟩ :=
    assigned_reached value hreadyCaptured hscoped.2.2 hvalueBudget hwalkDefer.ahead
  have hreadyClosed := hreadyCaptured.after hwalkValue
  obtain ⟨parked, hpark, hwalkPark⟩ :=
    emit_reached hreadyClosed.writer_open hwalkValue.ahead (.pop .temp 0)
  have hreadyParked := hreadyClosed.after hwalkPark
  obtain ⟨based, hbase, hwalkBase⟩ := pushVariable_reached hreadyParked hwalkPark.ahead hresolve
  have hreadyBased := hreadyParked.after hwalkBase
  obtain ⟨indexed, hindex, hwalkIndex⟩ :=
    emitAll_reached hreadyBased.writer_open hwalkBase.ahead (index.code scope)
  have hreadyIndexed := hreadyBased.after hwalkIndex
  obtain ⟨added, hadd, hwalkAdd⟩ :=
    emit_reached hreadyIndexed.writer_open hwalkIndex.ahead (.operation .add)
  have hreadyAdded := hreadyIndexed.after hwalkAdd
  obtain ⟨pointed, hpoint, hwalkPoint⟩ :=
    emit_reached hreadyAdded.writer_open hwalkAdd.ahead (.pop .pointer 1)
  have hreadyPointed := hreadyAdded.after hwalkPoint
  obtain ⟨fetched, hfetch, hwalkFetch⟩ :=
    emit_reached hreadyPointed.writer_open hwalkPoint.ahead (.push .temp 0)
  obtain ⟨reached, hstore, hwalkStore⟩ := emit_reached
    (hreadyPointed.after hwalkFetch).writer_open hwalkFetch.ahead (.pop .that 0)
  refine ⟨reached, ?_, ?_⟩
  · rw [assignment, move_eq, bind_ok hlet, bind_ok hname, still_eq, bind_ok hlookup, atSymbol_bind,
      hwalkName.ahead.1, if_pos (by simp), capture_eq, bind_ok hdefer, bind_ok hequal,
      bind_ok hvalue, bind_ok hsemicolon, pop, still_eq, bind_ok hpark, bind_ok hbase, still_eq,
      bind_ok hindex, operation, still_eq, bind_ok hadd, pop, still_eq, bind_ok hpoint, push,
      still_eq, bind_ok hfetch]
    exact hstore
  · have hvalueWalk := ((hwalkLet.trans hwalkName).trans hwalkDefer).trans hwalkValue
    have hindexWalk := (hwalkPark.trans hwalkBase).trans hwalkIndex
    have hstoreWalk := ((hwalkAdd.trans hwalkPoint).trans hwalkFetch).trans hwalkStore
    simpa [Statement.code, storeCode] using (hvalueWalk.trans hindexWalk).trans hstoreWalk

/-- `do call;` -/
theorem invocation_reached (call : Call) (hready : compiler.Ready scope)
    (hscoped : call.Scoped scope) (hbudget : (Statement.invoke call).tokens.length ≤ budget)
    (hahead : compiler.Ahead ((Statement.invoke call).tokens ++ rest)) :
    ∃ reached, invocation budget compiler = .ok () reached ∧
      Reached compiler ((Statement.invoke call).code scope compiler.labels) 0 rest reached := by
  obtain ⟨first, c, tail, _, htokens⟩ := call.exists_tokens_eq
  simp only [Statement.tokens, htokens, List.length_cons, List.length_append, List.cons_append,
    List.append_assoc] at hbudget hahead
  obtain ⟨behindDo, hdo, hwalkDo⟩ := advance_reached hahead
  obtain ⟨named, hname, hwalkName⟩ := name_reached hwalkDo.ahead
  have hreadyNamed := (hready.after hwalkDo).after hwalkName
  obtain ⟨called, hcall, hwalkCall⟩ := call_reached call budget hreadyNamed hscoped htokens
    (by simp only [List.length_cons]; omega) hwalkName.ahead
  obtain ⟨closed, hsemicolon, hwalkSemicolon⟩ := expect_reached hwalkCall.ahead
  have hreadyClosed := (hreadyNamed.after hwalkCall).after hwalkSemicolon
  obtain ⟨reached, hpop, hwalkPop⟩ :=
    emit_reached hreadyClosed.writer_open hwalkSemicolon.ahead (.pop .temp 0)
  refine ⟨reached, ?_, ?_⟩
  · rw [invocation, move_eq, bind_ok hdo, bind_ok hname, bind_ok hcall, expectSymbol, bind_ok hsemicolon]
    exact hpop
  · simpa [Statement.code] using
      (((hwalkDo.trans hwalkName).trans hwalkCall).trans hwalkSemicolon).trans hwalkPop

/-- `return;` or `return value;` -/
theorem exit_reached (value : Option Expression) (hready : compiler.Ready scope)
    (hscoped : (Statement.exit value).Scoped scope)
    (hbudget : (Statement.exit value).tokens.length ≤ budget)
    (hahead : compiler.Ahead ((Statement.exit value).tokens ++ rest)) :
    ∃ reached, exit budget compiler = .ok () reached ∧
      Reached compiler ((Statement.exit value).code scope compiler.labels) 0 rest reached := by
  cases value with
  | none =>
    simp only [Statement.tokens, List.cons_append, List.nil_append] at hahead
    obtain ⟨behindReturn, hreturn, hwalkReturn⟩ := advance_reached hahead
    have hreadyReturn := hready.after hwalkReturn
    obtain ⟨valued, hvalue, hwalkValue⟩ :=
      emit_reached hreadyReturn.writer_open hwalkReturn.ahead (.push .constant 0)
    obtain ⟨returned, hret, hwalkRet⟩ :=
      emit_reached (hreadyReturn.after hwalkValue).writer_open hwalkValue.ahead .ret
    obtain ⟨reached, hsemicolon, hwalkSemicolon⟩ := expect_reached hwalkRet.ahead
    refine ⟨reached, ?_, ?_⟩
    · rw [exit, move_eq, bind_ok hreturn, atSymbol_bind, hwalkReturn.ahead.1, if_pos (by simp), push,
        still_eq, bind_ok hvalue]
      exact (bind_ok hret).trans hsemicolon
    · exact ((hwalkReturn.trans hwalkValue).trans hwalkRet).trans hwalkSemicolon
  | some value =>
    simp only [Statement.tokens, List.length_cons, List.length_append, List.cons_append,
      List.append_assoc] at hbudget hahead
    obtain ⟨behindReturn, hreturn, hwalkReturn⟩ := advance_reached hahead
    have hreadyReturn := hready.after hwalkReturn
    -- an expression does not begin with a semicolon
    have hcurrent : behindReturn.current ≠ some (.symbol ';') := by
      rw [hwalkReturn.ahead.current_eq]
      exact value.head_ne_closing (by simp) _
    obtain ⟨valued, hvalue, hwalkValue⟩ := expression_reached value budget hreadyReturn hscoped
      (by omega) (endsExpression_of_closing (by simp) rest) hwalkReturn.ahead
    obtain ⟨returned, hret, hwalkRet⟩ :=
      emit_reached (hreadyReturn.after hwalkValue).writer_open hwalkValue.ahead .ret
    obtain ⟨reached, hsemicolon, hwalkSemicolon⟩ := expect_reached hwalkRet.ahead
    refine ⟨reached, ?_, ?_⟩
    · rw [exit, move_eq, bind_ok hreturn, atSymbol_bind, if_neg (by simpa using hcurrent),
        bind_ok hvalue]
      exact (bind_ok hret).trans hsemicolon
    · simpa [Statement.code] using
        ((hwalkReturn.trans hwalkValue).trans hwalkRet).trans hwalkSemicolon

/-- What a block rule does on a block: it emits the translation of the block, whatever
numbers were taken before, and stops at the closing brace. -/
def CompilesBlock (scope : Scope) (rule : CompileM Unit) (block : Block) : Prop :=
  ∀ (inside : Compiler) (behind : List Token), inside.Ready scope →
    inside.Ahead (block.tokens ++ .symbol '}' :: behind) → ∃ reached,
      rule inside = .ok () reached ∧
        Reached inside (block.code scope inside.labels) block.labels (.symbol '}' :: behind) reached

/-- A block between its braces. -/
theorem CompilesBlock.between_reached {rule : CompileM Unit} {block : Block}
    (hblock : CompilesBlock scope rule block) (hready : compiler.Ready scope)
    (hahead : compiler.Ahead (.symbol '{' :: (block.tokens ++ .symbol '}' :: rest))) :
    ∃ reached, between '{' rule '}' compiler = .ok () reached ∧
      Reached compiler (block.code scope compiler.labels) block.labels rest reached :=
  Compiler.between_reached hahead fun inside hinside => by
    have hlabels : inside.labels = compiler.labels := hinside.labels_eq
    rw [← hlabels]
    exact hblock inside rest (hready.after hinside) hinside.ahead

/-- The start of a conditional or loop: its number, its first label, its condition and
the jump over its block. -/
theorem guard_reached (start skip : LabelTag) (condition : Expression) {token : Token}
    {tokens : List Token} (hready : compiler.Ready scope) (hscoped : condition.Scoped scope)
    (hbudget : condition.tokens.length ≤ budget)
    (hahead : compiler.Ahead
      (token :: .symbol '(' :: (condition.tokens ++ .symbol ')' :: tokens))) :
    ∃ numbered moved labelled tested negated reached,
      freshLabel compiler = .ok (toString compiler.labels) numbered ∧
      advance numbered = .ok () moved ∧
      emit (.label (start.name compiler.labels)) moved = .ok () labelled ∧
      between '(' (expression budget) ')' labelled = .ok () tested ∧
      operation .not tested = .ok () negated ∧
      emit (.ifGoto (skip.name compiler.labels)) negated = .ok () reached ∧
      Reached compiler
        (.label (start.name compiler.labels) :: (condition.code scope ++
          [.operation .not, .ifGoto (skip.name compiler.labels)])) 1 tokens reached := by
  obtain ⟨numbered, hfresh, hwalkFresh⟩ := freshLabel_reached hahead
  -- the number is taken before the word is passed over, and names both labels
  have hreadyNumbered := hready.after hwalkFresh
  obtain ⟨moved, hmove, hwalkMove⟩ := advance_reached hwalkFresh.ahead
  have hreadyMoved := hreadyNumbered.after hwalkMove
  obtain ⟨labelled, hlabel, hwalkLabel⟩ := emit_reached hreadyMoved.writer_open hwalkMove.ahead
    (.label (start.name compiler.labels))
  have hreadyLabelled := hreadyMoved.after hwalkLabel
  obtain ⟨tested, htest, hwalkTest⟩ := Compiler.between_reached hwalkLabel.ahead
    (fun inside hinside => expression_reached condition budget (hreadyLabelled.after hinside)
      hscoped hbudget (endsExpression_of_closing (by simp) tokens) hinside.ahead)
  have hreadyTested := hreadyLabelled.after hwalkTest
  obtain ⟨negated, hnot, hwalkNot⟩ :=
    emit_reached hreadyTested.writer_open hwalkTest.ahead (.operation .not)
  obtain ⟨reached, hjump, hwalkJump⟩ := emit_reached (hreadyTested.after hwalkNot).writer_open
    hwalkNot.ahead (.ifGoto (skip.name compiler.labels))
  refine ⟨numbered, moved, labelled, tested, negated, reached, hfresh, hmove, hlabel, htest, hnot,
    hjump, ?_⟩
  simpa using ((((hwalkFresh.trans hwalkMove).trans hwalkLabel).trans hwalkTest).trans
    hwalkNot).trans hwalkJump

/-- `while (condition) {body}` -/
theorem loop_reached {rule : CompileM Unit} (condition : Expression) (body : Block)
    (hready : compiler.Ready scope) (hscoped : condition.Scoped scope)
    (hbudget : condition.tokens.length ≤ budget) (hbody : CompilesBlock scope rule body)
    (hahead : compiler.Ahead ((Statement.loop condition body).tokens ++ rest)) :
    ∃ reached, loop rule budget compiler = .ok () reached ∧
      Reached compiler ((Statement.loop condition body).code scope compiler.labels)
        (Statement.loop condition body).labels rest reached := by
  simp only [Statement.tokens, List.cons_append, List.append_assoc, List.nil_append] at hahead
  obtain ⟨numbered, moved, labelled, tested, negated, guarded, hfresh, hmove, hlabel, htest, hnot,
    hjump, hwalkGuard⟩ := guard_reached .whileStart .whileEnd condition hready hscoped hbudget hahead
  have hreadyGuarded := hready.after hwalkGuard
  obtain ⟨repeated, hblock, hwalkBlock⟩ := hbody.between_reached hreadyGuarded hwalkGuard.ahead
  have hreadyRepeated := hreadyGuarded.after hwalkBlock
  obtain ⟨back, hback, hwalkBack⟩ := emit_reached hreadyRepeated.writer_open hwalkBlock.ahead
    (.goto (LabelTag.whileStart.name compiler.labels))
  obtain ⟨reached, hend, hwalkEnd⟩ := emit_reached (hreadyRepeated.after hwalkBack).writer_open
    hwalkBack.ahead (.label (LabelTag.whileEnd.name compiler.labels))
  refine ⟨reached, ?_, ?_⟩
  · rw [loop, still_eq, bind_ok hfresh, move_eq, bind_ok hmove]
    refine (bind_ok hlabel).trans ?_
    rw [bind_ok htest, bind_ok hnot]
    refine (bind_ok hjump).trans ?_
    rw [bind_ok hblock]
    exact (bind_ok hback).trans hend
  · have hwalk := ((hwalkGuard.trans hwalkBlock).trans hwalkBack).trans hwalkEnd
    -- the body starts at the number behind the one that the loop has taken
    rw [hwalkGuard.labels_eq] at hwalk
    simpa [Statement.code, loopCode, Statement.labels, Nat.add_comm] using hwalk

/-- A conditional up to the label of its other branch. -/
theorem branch_reached {rule : CompileM Unit} (condition : Expression) (block : Block)
    {tokens : List Token} (hready : compiler.Ready scope) (hscoped : condition.Scoped scope)
    (hbudget : condition.tokens.length ≤ budget) (hblock : CompilesBlock scope rule block)
    (hahead : compiler.Ahead (.keyword .ifKw :: .symbol '(' :: (condition.tokens ++
      .symbol ')' :: .symbol '{' :: (block.tokens ++ .symbol '}' :: tokens)))) :
    ∃ middle,
      conditional rule budget compiler = (do
        if ← atKeyword .elseKw then
          advance
          between '{' rule '}'
        emit (.label (LabelTag.ifEnd.name compiler.labels)) : CompileM Unit) middle ∧
      Reached compiler
        (.label (LabelTag.ifStart.name compiler.labels) :: (condition.code scope ++
          .operation .not :: .ifGoto (LabelTag.otherwise.name compiler.labels) ::
            (block.code scope (compiler.labels + 1) ++
              [.goto (LabelTag.ifEnd.name compiler.labels),
                .label (LabelTag.otherwise.name compiler.labels)])))
        (block.labels + 1) tokens middle := by
  obtain ⟨numbered, moved, labelled, tested, negated, guarded, hfresh, hmove, hlabel, htest, hnot,
    hjump, hwalkGuard⟩ := guard_reached .ifStart .otherwise condition hready hscoped hbudget hahead
  have hreadyGuarded := hready.after hwalkGuard
  obtain ⟨done, hblock, hwalkBlock⟩ := hblock.between_reached hreadyGuarded hwalkGuard.ahead
  have hreadyDone := hreadyGuarded.after hwalkBlock
  obtain ⟨jumped, hover, hwalkOver⟩ := emit_reached hreadyDone.writer_open hwalkBlock.ahead
    (.goto (LabelTag.ifEnd.name compiler.labels))
  obtain ⟨middle, hother, hwalkOther⟩ := emit_reached (hreadyDone.after hwalkOver).writer_open
    hwalkOver.ahead (.label (LabelTag.otherwise.name compiler.labels))
  -- what is left of the rule is the choice whether there is another block
  refine ⟨middle, ?_, ?_⟩
  · rw [conditional, still_eq, bind_ok hfresh, move_eq, bind_ok hmove]
    refine (bind_ok hlabel).trans ?_
    rw [bind_ok htest, bind_ok hnot]
    refine (bind_ok hjump).trans ?_
    rw [bind_ok hblock]
    exact (bind_ok hover).trans (bind_ok hother)
  · have hwalk := ((hwalkGuard.trans hwalkBlock).trans hwalkOver).trans hwalkOther
    rw [hwalkGuard.labels_eq] at hwalk
    simpa [Nat.add_comm] using hwalk

/-- `if (condition) {block}` -/
theorem conditional_reached_ifThen {rule : CompileM Unit} (condition : Expression)
    (block : Block) (hready : compiler.Ready scope) (hscoped : condition.Scoped scope)
    (hbudget : condition.tokens.length ≤ budget) (hblock : CompilesBlock scope rule block)
    (helse : rest.head? ≠ some (.keyword .elseKw))
    (hahead : compiler.Ahead ((Statement.ifThen condition block).tokens ++ rest)) :
    ∃ reached, conditional rule budget compiler = .ok () reached ∧
      Reached compiler ((Statement.ifThen condition block).code scope compiler.labels)
        (Statement.ifThen condition block).labels rest reached := by
  simp only [Statement.tokens, List.cons_append, List.append_assoc, List.nil_append] at hahead
  obtain ⟨middle, hbranch, hwalkBranch⟩ :=
    branch_reached condition block hready hscoped hbudget hblock hahead
  obtain ⟨reached, hend, hwalkEnd⟩ := emit_reached (hready.after hwalkBranch).writer_open
    hwalkBranch.ahead (.label (LabelTag.ifEnd.name compiler.labels))
  have hcurrent : middle.current ≠ some (.keyword .elseKw) := by
    rw [hwalkBranch.ahead.current_eq]
    exact helse
  refine ⟨reached, ?_, ?_⟩
  · rw [hbranch, atKeyword_bind, if_neg (by simpa using hcurrent)]
    exact hend
  · simpa [Statement.code, conditionalCode, Statement.labels] using hwalkBranch.trans hwalkEnd

/-- `if (condition) {block} else {otherwise}` -/
theorem conditional_reached_ifElse {rule : CompileM Unit} (condition : Expression)
    (block otherwise : Block) (hready : compiler.Ready scope) (hscoped : condition.Scoped scope)
    (hbudget : condition.tokens.length ≤ budget) (hblock : CompilesBlock scope rule block)
    (hotherwise : CompilesBlock scope rule otherwise)
    (hahead : compiler.Ahead ((Statement.ifElse condition block otherwise).tokens ++ rest)) :
    ∃ reached, conditional rule budget compiler = .ok () reached ∧
      Reached compiler ((Statement.ifElse condition block otherwise).code scope compiler.labels)
        (Statement.ifElse condition block otherwise).labels rest reached := by
  simp only [Statement.tokens, List.cons_append, List.append_assoc, List.nil_append] at hahead
  obtain ⟨middle, hbranch, hwalkBranch⟩ :=
    branch_reached condition block hready hscoped hbudget hblock hahead
  have hreadyMiddle := hready.after hwalkBranch
  obtain ⟨behindElse, helse, hwalkElse⟩ := advance_reached hwalkBranch.ahead
  have hreadyElse := hreadyMiddle.after hwalkElse
  obtain ⟨done, hother, hwalkOther⟩ := hotherwise.between_reached hreadyElse hwalkElse.ahead
  obtain ⟨reached, hend, hwalkEnd⟩ := emit_reached (hreadyElse.after hwalkOther).writer_open
    hwalkOther.ahead (.label (LabelTag.ifEnd.name compiler.labels))
  refine ⟨reached, ?_, ?_⟩
  · rw [hbranch, atKeyword_bind, hwalkBranch.ahead.1, if_pos (by simp), bind_ok helse]
    exact (bind_ok hother).trans hend
  · have hwalk := ((hwalkBranch.trans hwalkElse).trans hwalkOther).trans hwalkEnd
    rw [hwalkElse.labels_eq, hwalkBranch.labels_eq] at hwalk
    -- the other branch starts where the first one has left off
    have hnumber : compiler.labels + (block.labels + 1) + 0 =
        compiler.labels + 1 + block.labels := by omega
    rw [hnumber] at hwalk
    have hlabels : (Statement.ifElse condition block otherwise).labels =
        block.labels + 1 + 0 + otherwise.labels + 0 := by
      rw [Statement.labels]
      omega
    rw [hlabels]
    simpa [Statement.code, conditionalCode] using hwalk

end Rules

/-! ## Statements and blocks -/

mutual

theorem statement_reached (tree : Statement) (budget : Nat) {scope : Scope} {compiler : Compiler}
    {rest : List Token} (hready : compiler.Ready scope) (hscoped : tree.Scoped scope)
    (hbudget : tree.tokens.length ≤ budget) (helse : rest.head? ≠ some (.keyword .elseKw))
    (hahead : compiler.Ahead (tree.tokens ++ rest)) :
    ∃ reached, statement (statements budget) budget tree.kind compiler = .ok () reached ∧
      Reached compiler (tree.code scope compiler.labels) tree.labels rest reached := by
  match tree with
  | .assign target value => exact assignment_reached_assign target value hready hscoped hbudget hahead
  | .store target index value =>
    exact assignment_reached_store target index value hready hscoped hbudget hahead
  -- the budget covers the tokens of the statement, so it covers those of its blocks
  | .ifThen condition block =>
    simp only [Statement.tokens, List.length_cons, List.length_append] at hbudget
    exact conditional_reached_ifThen condition block hready hscoped.1 (by omega)
      (fun inside behind hinside haheadInside =>
        block_reached block budget hinside hscoped.2 (by omega) haheadInside) helse hahead
  | .ifElse condition block otherwise =>
    simp only [Statement.tokens, List.length_cons, List.length_append] at hbudget
    exact conditional_reached_ifElse condition block otherwise hready hscoped.1 (by omega)
      (fun inside behind hinside haheadInside =>
        block_reached block budget hinside hscoped.2.1 (by omega) haheadInside)
      (fun inside behind hinside haheadInside =>
        block_reached otherwise budget hinside hscoped.2.2 (by omega) haheadInside) hahead
  | .loop condition body =>
    simp only [Statement.tokens, List.length_cons, List.length_append] at hbudget
    exact loop_reached condition body hready hscoped.1 (by omega)
      (fun inside behind hinside haheadInside =>
        block_reached body budget hinside hscoped.2 (by omega) haheadInside) hahead
  | .invoke call => exact invocation_reached call hready hscoped hbudget hahead
  | .exit value => exact exit_reached value hready hscoped hbudget hahead

/-- Statements up to a closing brace. -/
theorem block_reached (tree : Block) (budget : Nat) {scope : Scope} {compiler : Compiler}
    {rest : List Token} (hready : compiler.Ready scope) (hscoped : tree.Scoped scope)
    (hbudget : tree.tokens.length < budget)
    (hahead : compiler.Ahead (tree.tokens ++ .symbol '}' :: rest)) :
    ∃ reached, statements budget compiler = .ok () reached ∧
      Reached compiler (tree.code scope compiler.labels) tree.labels (.symbol '}' :: rest)
        reached := by
  obtain ⟨depth, rfl⟩ : ∃ depth, budget = depth + 1 := ⟨budget - 1, by omega⟩
  exact rounds_reached tree depth depth hready hscoped (by omega) (by omega) hahead

/-- The loop over the statements of a block; `rounds` bounds how often it is entered. -/
theorem rounds_reached (tree : Block) (budget rounds : Nat) {scope : Scope}
    {compiler : Compiler} {rest : List Token} (hready : compiler.Ready scope)
    (hscoped : tree.Scoped scope) (hbudget : tree.tokens.length ≤ budget)
    (hrounds : tree.tokens.length ≤ rounds)
    (hahead : compiler.Ahead (tree.tokens ++ .symbol '}' :: rest)) :
    ∃ reached,
      many statementKind? (statement (statements budget) budget) rounds compiler =
        .ok () reached ∧
      Reached compiler (tree.code scope compiler.labels) tree.labels (.symbol '}' :: rest)
        reached := by
  match tree with
  | .nil =>
    refine ⟨compiler, many_stop ?_ rounds, .refl hahead⟩
    rw [hahead.1]
    rfl
  | .cons first others =>
    obtain ⟨keyword, tail, htokens, _, hkind⟩ := first.exists_tokens_eq
    -- a statement has a keyword, so there is a round left for it
    have hfirstLength : 0 < first.tokens.length := by simp [htokens]
    simp only [Block.tokens, List.length_append, List.append_assoc] at hbudget hrounds hahead
    obtain ⟨round, rfl⟩ : ∃ round, rounds = round + 1 := ⟨rounds - 1, by omega⟩
    have hhead : compiler.current.bind statementKind? = some first.kind := by
      rw [hahead.current_eq, htokens]
      exact hkind
    obtain ⟨middle, hfirst, hmiddle⟩ := statement_reached first budget hready hscoped.1 (by omega)
      (others.head_ne_else rest) hahead
    obtain ⟨reached, hothers, hreached⟩ := rounds_reached others budget round
      (hready.after hmiddle) hscoped.2 (by omega) (by omega) hmiddle.ahead
    refine ⟨reached, (many_step hhead hfirst round).trans hothers, ?_⟩
    rw [hmiddle.labels_eq] at hreached
    exact hmiddle.trans hreached

end

end Compiler

end Jack
