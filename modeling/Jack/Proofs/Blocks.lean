/-
The blocks of a class: one for each subroutine, in the order of the source.

A block begins with a `function` command and has no other one. It ends in front of
the next `function` command or at the end of the code, so every command of a class
belongs to one block (`ClassTree.exists_block`).

Jumps do not leave the block they stand in. A conditional or loop brings along the
labels that it jumps to, so every piece of code that a statement is translated to has
the labels of all its jumps (`JumpsInside`), and no other label of the class has such
a name.
-/
import Jack.Proofs.Layout
import Jack.Proofs.Process

set_option autoImplicit false

namespace Jack

/-! ## Jumps -/

namespace Vm

/-- The name of the label that a command may jump to. -/
def Command.jumpName? : Command → Option String
  | .goto name => some name
  | .ifGoto name => some name
  | _ => none

/-- Every jump of a piece of code has its label in the same piece. -/
def JumpsInside (code : List Command) : Prop :=
  ∀ command ∈ code, ∀ name ∈ command.jumpName?, .label name ∈ code

namespace JumpsInside

variable {code first second : List Command}

theorem append (h : JumpsInside first) (h' : JumpsInside second) :
    JumpsInside (first ++ second) := by
  intro command hmem name hname
  rcases List.mem_append.1 hmem with hmem | hmem
  · exact List.mem_append_left second (h command hmem name hname)
  · exact List.mem_append_right first (h' command hmem name hname)

/-- Code without jumps. -/
theorem of_none (h : ∀ command ∈ code, command.jumpName? = none) : JumpsInside code := by
  intro command hmem name hname
  rw [h command hmem] at hname
  cases hname

theorem of_evaluates (h : code.all Command.evaluates) : JumpsInside code := by
  apply of_none
  intro command hmem
  have hevaluates := List.all_eq_true.1 h command hmem
  cases command <;> first | rfl | cases hevaluates

end JumpsInside

/-- The commands of the block that begins with the `function` command at a position: those
behind it, up to the next `function` command. -/
def blockBehind (program : List Command) (start : Nat) : List Command :=
  (program.drop (start + 1)).takeWhile fun command => command.functionName?.isNone

end Vm

namespace Syntax

open Vm (Command CodeAt JumpsInside)

variable {scope : Scope}

theorem jumpsInside_popName (scope : Scope) (name : String) :
    JumpsInside (scope.popName name) := by
  apply JumpsInside.of_none
  intro command hmem
  unfold Scope.popName at hmem
  cases hresolve : scope.resolve? name with
  | none => simp [hresolve] at hmem
  | some symbol =>
    rw [hresolve] at hmem
    rw [List.mem_singleton.1 hmem]
    rfl

theorem jumpsInside_popTemp : JumpsInside [.pop .temp 0] :=
  .of_none (by simp [Command.jumpName?])

/-- A conditional has the two labels that it jumps to. -/
theorem jumpsInside_conditionalCode {condition block otherwise : List Command}
    (hcondition : JumpsInside condition) (hblock : JumpsInside block)
    (hother : JumpsInside otherwise) (number : Nat) :
    JumpsInside (conditionalCode number condition block otherwise) := by
  intro command hmem name hname
  simp only [conditionalCode, List.mem_cons, List.mem_append, List.not_mem_nil, or_false]
    at hmem ⊢
  rcases hmem with rfl | hmem | rfl | rfl | hmem | rfl | rfl | hmem | rfl
  · cases hname
  · exact .inr (.inl (hcondition command hmem name hname))
  · cases hname
  · obtain rfl := Option.some.inj hname
    simp
  · have hlabel := hblock command hmem name hname
    simp [hlabel]
  · obtain rfl := Option.some.inj hname
    simp
  · cases hname
  · have hlabel := hother command hmem name hname
    simp [hlabel]
  · cases hname

/-- A loop has the two labels that it jumps to. -/
theorem jumpsInside_loopCode {condition body : List Command}
    (hcondition : JumpsInside condition) (hbody : JumpsInside body) (number : Nat) :
    JumpsInside (loopCode number condition body) := by
  intro command hmem name hname
  simp only [loopCode, List.mem_cons, List.mem_append, List.not_mem_nil, or_false] at hmem ⊢
  rcases hmem with rfl | hmem | rfl | rfl | hmem | rfl | rfl
  · cases hname
  · exact .inr (.inl (hcondition command hmem name hname))
  · cases hname
  · obtain rfl := Option.some.inj hname
    simp
  · have hlabel := hbody command hmem name hname
    simp [hlabel]
  · obtain rfl := Option.some.inj hname
    simp
  · cases hname

mutual

/-- The jumps of a statement have their labels in it. -/
theorem Statement.jumpsInside (tree : Statement) (number : Nat) :
    JumpsInside (tree.code scope number) := by
  match tree with
  | .assign target value =>
    exact (JumpsInside.of_evaluates value.evaluates_code).append (jumpsInside_popName scope target)
  | .store target index value =>
    have haddress : JumpsInside (scope.pushName target ++ index.code scope) :=
      (JumpsInside.of_evaluates (evaluates_pushName scope target)).append
        (.of_evaluates index.evaluates_code)
    have hwrite : JumpsInside [.operation .add, .pop .pointer 1, .push .temp 0, .pop .that 0] :=
      .of_none (by simp [Command.jumpName?])
    exact (JumpsInside.of_evaluates value.evaluates_code).append
      (jumpsInside_popTemp.append (haddress.append hwrite))
  -- what has jumps sets their labels too
  | .ifThen condition block =>
    exact jumpsInside_conditionalCode (.of_evaluates condition.evaluates_code)
      (block.jumpsInside _) (.of_none fun _ hmem => absurd hmem List.not_mem_nil) number
  | .ifElse condition block otherwise =>
    exact jumpsInside_conditionalCode (.of_evaluates condition.evaluates_code)
      (block.jumpsInside _) (otherwise.jumpsInside _) number
  | .loop condition body =>
    exact jumpsInside_loopCode (.of_evaluates condition.evaluates_code) (body.jumpsInside _) number
  | .invoke call =>
    exact (JumpsInside.of_evaluates call.evaluates_code).append jumpsInside_popTemp
  | .exit none => exact .of_none (by simp [Statement.code, Command.jumpName?])
  | .exit (some value) =>
    have hreturn : JumpsInside [.ret] := .of_none (by simp [Command.jumpName?])
    exact (JumpsInside.of_evaluates value.evaluates_code).append hreturn

theorem Block.jumpsInside (tree : Block) (number : Nat) :
    JumpsInside (tree.code scope number) := by
  match tree with
  | .nil => exact .of_none fun _ hmem => absurd hmem List.not_mem_nil
  | .cons first rest => exact (first.jumpsInside number).append (rest.jumpsInside _)

end

/-! ## Blocks -/

/-- Where the block of a subroutine begins, given the subroutines in front of it. -/
def ClassTree.blockPosition (tree : ClassTree) (before : List Subroutine) : Nat :=
  (tree.codeFrom 0 before).length

/-- The commands of the block of a subroutine behind its `function` command, given the
number of its first label. -/
def ClassTree.blockBody (tree : ClassTree) (number : Nat) (subroutine : Subroutine) :
    List Command :=
  entryCode (counted tree.fieldCount) subroutine.kind ++
    subroutine.body.code (tree.scope subroutine) number

theorem ClassTree.subroutineCode_eq (tree : ClassTree) (number : Nat) (subroutine : Subroutine) :
    tree.subroutineCode number subroutine =
      .function (tree.name ++ "." ++ subroutine.name) (counted subroutine.localCount) ::
        tree.blockBody number subroutine :=
  rfl

theorem ClassTree.jumpsInside_blockBody (tree : ClassTree) (number : Nat)
    (subroutine : Subroutine) : JumpsInside (tree.blockBody number subroutine) := by
  have hentry : JumpsInside (entryCode (counted tree.fieldCount) subroutine.kind) := by
    apply JumpsInside.of_none
    cases subroutine.kind <;> simp [entryCode, Command.jumpName?]
  exact hentry.append (subroutine.body.jumpsInside number)

/-- The code of a class around the block of one of its subroutines. -/
theorem ClassTree.code_eq_around {tree : ClassTree} {before after : List Subroutine}
    {subroutine : Subroutine} (hsplit : tree.subroutines = before ++ subroutine :: after) :
    tree.code = tree.codeFrom 0 before ++
      (tree.subroutineCode (labelsOf before) subroutine ++
        tree.codeFrom (labelsOf before + subroutine.body.labels) after) := by
  rw [ClassTree.code, hsplit, ClassTree.codeFrom_append, Nat.zero_add, ClassTree.codeFrom]

/-- A block stands at its position. -/
theorem ClassTree.codeAt_block {tree : ClassTree} {before after : List Subroutine}
    {subroutine : Subroutine} (hsplit : tree.subroutines = before ++ subroutine :: after) :
    CodeAt tree.code (tree.blockPosition before)
      (tree.subroutineCode (labelsOf before) subroutine) := by
  rw [tree.code_eq_around hsplit]
  exact .of_append _ _ _

/-- Code of subroutines is nothing or begins with a `function` command. -/
theorem ClassTree.exists_function_of_head {tree : ClassTree} {number : Nat}
    {subroutines : List Subroutine} {command : Command}
    (hhead : (tree.codeFrom number subroutines)[0]? = some command) :
    ∃ name count, command = .function name count := by
  cases subroutines with
  | nil => cases hhead
  | cons first rest => exact ⟨_, _, (Option.some.inj hhead).symm⟩

/-- A block ends in front of a `function` command or at the end of the code. -/
theorem ClassTree.exists_function_behind {tree : ClassTree} {before after : List Subroutine}
    {subroutine : Subroutine} (hsplit : tree.subroutines = before ++ subroutine :: after)
    {command : Command}
    (hcommand : tree.code[tree.blockPosition before +
      (tree.subroutineCode (labelsOf before) subroutine).length]? = some command) :
    ∃ name count, command = .function name count := by
  rw [tree.code_eq_around hsplit, blockPosition, ← List.append_assoc, ← List.length_append,
    List.getElem?_append_right (Nat.le_refl _), Nat.sub_self] at hcommand
  exact exists_function_of_head hcommand

/-- Every command of the code of subroutines stands in the block of one of them. -/
theorem ClassTree.exists_block_codeFrom {tree : ClassTree} {number : Nat}
    {subroutines : List Subroutine} {position : Nat} {command : Command}
    (hcommand : (tree.codeFrom number subroutines)[position]? = some command) :
    ∃ before subroutine after place, subroutines = before ++ subroutine :: after ∧
      position = (tree.codeFrom number before).length + place ∧
      (tree.subroutineCode (number + labelsOf before) subroutine)[place]? = some command := by
  induction subroutines generalizing number position with
  | nil => cases hcommand
  | cons first rest ih =>
    rw [codeFrom] at hcommand
    by_cases hinside : position < (tree.subroutineCode number first).length
    · rw [List.getElem?_append_left hinside] at hcommand
      exact ⟨[], first, rest, position, rfl, (Nat.zero_add position).symm, hcommand⟩
    · -- behind the first block, the position counts from its end
      rw [List.getElem?_append_right (Nat.le_of_not_lt hinside)] at hcommand
      obtain ⟨before, subroutine, after, place, rfl, hposition, hblock⟩ := ih hcommand
      refine ⟨first :: before, subroutine, after, place, rfl, ?_, ?_⟩
      · rw [codeFrom, List.length_append]
        omega
      · rwa [labelsOf, ← Nat.add_assoc]

/-- **Every command has its block.** -/
theorem ClassTree.exists_block {tree : ClassTree} {position : Nat} {command : Command}
    (hcommand : tree.code[position]? = some command) :
    ∃ before subroutine after place, tree.subroutines = before ++ subroutine :: after ∧
      position = tree.blockPosition before + place ∧
      (tree.subroutineCode (labelsOf before) subroutine)[place]? = some command := by
  obtain ⟨before, subroutine, after, place, hsplit, hposition, hblock⟩ :=
    exists_block_codeFrom hcommand
  rw [Nat.zero_add] at hblock
  exact ⟨before, subroutine, after, place, hsplit, hposition, hblock⟩

end Syntax

end Jack
