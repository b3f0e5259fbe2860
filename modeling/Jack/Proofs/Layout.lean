/-
How the code of a class is laid out.

A conditional or loop takes one number for its labels, before anything inside it
takes one. So the labels of a statement that starts at `n` have numbers from `n` up
to the number that is left to the next statement (`Numbered`), and pieces of code
that stand behind each other share none. Inside one conditional or loop the names
differ in what they begin with. No two labels of a class have the same name
(`ClassTree.nodup_labelNames`).

The commands of a body stand behind the `function` command and the commands of the
entry, and those of a statement at its `Site`, which says where they begin and which
number its first label has.
-/
import Mathlib.Data.List.Nodup
import Mathlib.Data.List.Perm.Basic
import Jack.Proofs.Machine
import Jack.Proofs.Translation

set_option autoImplicit false

namespace Jack.Syntax

open Vm (Command CodeAt labelNames labelNames_cons labelNames_append labelNames_of_evaluates)

variable {scope : Scope}

/-! ## Names -/

/-- No tag begins with another one, so a name has one tag and one number. -/
theorem LabelTag.name_inj {tag other : LabelTag} {number count : Nat}
    (h : tag.name number = other.name count) : tag = other ∧ number = count := by
  have htag : tag = other := by
    have hlist : tag.text.toList ++ (toString number).toList =
        other.text.toList ++ (toString count).toList := by
      rw [← String.toList_append, ← String.toList_append]
      exact congrArg String.toList h
    -- the texts of two tags differ before either of them ends
    cases tag <;> cases other <;> first | rfl | simp [LabelTag.text] at hlist
  subst htag
  have hdigits : Nat.toDigits 10 number = Nat.toDigits 10 count := by
    have hnumber : toString number = toString count := (String.append_right_inj _).1 h
    rw [Nat.toString_eq_ofList_toDigits, Nat.toString_eq_ofList_toDigits] at hnumber
    exact String.ofList_injective hnumber
  have hvalue := congrArg (fun digits => Nat.ofDigitChars 10 digits 0) hdigits
  simp only [Nat.ofDigitChars_ten_toDigits] at hvalue
  exact ⟨rfl, hvalue⟩

/-! ## Expressions -/

theorem evaluates_pushName (scope : Scope) (name : String) :
    (scope.pushName name).all Command.evaluates := by
  unfold Scope.pushName
  cases scope.resolve? name <;> rfl

theorem evaluates_stringCode (content : String) :
    (stringCode content).all Command.evaluates := by
  simp [stringCode, Command.evaluates]

mutual

theorem Term.evaluates_code (tree : Term) : (tree.code scope).all Command.evaluates := by
  match tree with
  | .integer _ => rfl
  | .string content => exact evaluates_stringCode content
  | .word constant => cases constant <;> rfl
  | .var name => exact evaluates_pushName scope name
  | .element array index =>
    rw [Term.code, List.all_append, List.all_append, evaluates_pushName, index.evaluates_code]
    rfl
  | .call invoked => exact invoked.evaluates_code
  | .group inner => exact inner.evaluates_code
  | .unary operator operand =>
    rw [Term.code, List.all_append, operand.evaluates_code]
    cases operator <;> rfl

theorem Expression.evaluates_code (tree : Expression) :
    (tree.code scope).all Command.evaluates := by
  match tree with
  | .chain first rest =>
    rw [Expression.code, List.all_append, first.evaluates_code, rest.evaluates_code]
    rfl

theorem Operations.evaluates_code (tree : Operations) :
    (tree.code scope).all Command.evaluates := by
  match tree with
  | .nil => rfl
  | .cons operator operand rest =>
    have hoperator : operator.command.evaluates = true := by cases operator <;> rfl
    rw [Operations.code, List.all_append, operand.evaluates_code, List.all_cons, hoperator,
      rest.evaluates_code]
    rfl

theorem Call.evaluates_code (tree : Call) : (tree.code scope).all Command.evaluates := by
  match tree with
  | .bare routine list =>
    rw [Call.code, List.all_cons, List.all_append, list.evaluates_code]
    rfl
  | .dotted owner routine list =>
    unfold Call.code
    split <;> simp [list.evaluates_code, pushOf, Command.evaluates]

theorem Arguments.evaluates_code (tree : Arguments) :
    (tree.code scope).all Command.evaluates := by
  match tree with
  | .nil => rfl
  | .cons first rest =>
    rw [Arguments.code, List.all_append, first.evaluates_code, rest.evaluates_code]
    rfl

end

theorem Expression.labelNames_code (tree : Expression) : labelNames (tree.code scope) = [] :=
  labelNames_of_evaluates tree.evaluates_code

theorem labelNames_popName (scope : Scope) (name : String) :
    labelNames (scope.popName name) = [] := by
  unfold Scope.popName
  cases scope.resolve? name <;> rfl

/-! ## Statements number their labels -/

/-- Names of labels, each once, with numbers from `low` up to `high`. -/
structure Numbered (names : List String) (low high : Nat) : Prop where
  nodup : names.Nodup
  bounded : ∀ name ∈ names, ∃ tag : LabelTag, ∃ number, name = tag.name number ∧
    low ≤ number ∧ number < high

namespace Numbered

variable {names others : List String} {low middle high : Nat}

theorem nil (low high : Nat) : Numbered [] low high :=
  ⟨List.nodup_nil, fun _ hmem => absurd hmem List.not_mem_nil⟩

/-- Names behind names with smaller numbers. -/
theorem append (h : Numbered names low middle) (h' : Numbered others middle high)
    (hlow : low ≤ middle) (hhigh : middle ≤ high) : Numbered (names ++ others) low high := by
  -- a name in both would have a number below and above the middle
  refine ⟨List.nodup_append.2 ⟨h.nodup, h'.nodup, ?_⟩, ?_⟩
  · rintro name hmem _ hmem' rfl
    obtain ⟨tag, number, rfl, -, hbelow⟩ := h.bounded name hmem
    obtain ⟨other, count, hname, habove, -⟩ := h'.bounded _ hmem'
    have hnumber := (LabelTag.name_inj hname).2
    omega
  · intro name hmem
    rcases List.mem_append.1 hmem with hmem | hmem
    · obtain ⟨tag, number, hname, habove, hbelow⟩ := h.bounded name hmem
      exact ⟨tag, number, hname, habove, by omega⟩
    · obtain ⟨tag, number, hname, habove, hbelow⟩ := h'.bounded name hmem
      exact ⟨tag, number, hname, by omega, hbelow⟩

/-- The order of the names does not matter. -/
theorem perm (h : Numbered names low high) (hperm : others.Perm names) :
    Numbered others low high :=
  ⟨hperm.nodup_iff.2 h.nodup, fun name hmem => h.bounded name (hperm.mem_iff.1 hmem)⟩

/-- Another name with a number in the same range. -/
theorem concat {name : String} (h : Numbered names low high) (hnew : name ∉ names)
    (hname : ∃ tag : LabelTag, ∃ number, name = tag.name number ∧ low ≤ number ∧ number < high) :
    Numbered (names ++ [name]) low high := by
  refine ⟨List.nodup_append.2 ⟨h.nodup, List.nodup_singleton name, ?_⟩, ?_⟩
  · rintro other hother _ hmem rfl
    rw [List.mem_singleton.1 hmem] at hother
    exact hnew hother
  · intro other hmem
    rcases List.mem_append.1 hmem with hold | hlast
    · exact h.bounded other hold
    · rw [List.mem_singleton.1 hlast]
      exact hname

/-- Different tags with one number. -/
theorem of_tags {tags : List LabelTag} (htags : tags.Nodup) (number : Nat) :
    Numbered (tags.map fun tag => tag.name number) number (number + 1) := by
  refine ⟨htags.map fun tag other h => (LabelTag.name_inj h).1, ?_⟩
  intro name hmem
  obtain ⟨tag, -, rfl⟩ := List.mem_map.1 hmem
  exact ⟨tag, number, rfl, Nat.le_refl _, Nat.lt_succ_self _⟩

/-- The labels of a conditional stand around those of its branches. -/
theorem conditional {condition block otherwise : List Command} {number : Nat}
    (hcondition : labelNames condition = [])
    (hblock : Numbered (labelNames block) (number + 1) middle)
    (hother : Numbered (labelNames otherwise) middle high)
    (hlow : number + 1 ≤ middle) (hhigh : middle ≤ high) :
    Numbered (labelNames (conditionalCode number condition block otherwise)) number high := by
  -- its own labels have the first number, and those inside the numbers behind it
  have htags : [LabelTag.ifStart, .otherwise, .ifEnd].Nodup := by decide
  have hinside := hblock.append hother hlow hhigh
  refine ((of_tags htags number).append hinside (by omega) (by omega)).perm ?_
  have hnames : labelNames (conditionalCode number condition block otherwise) =
      LabelTag.ifStart.name number :: (labelNames block ++ LabelTag.otherwise.name number ::
        (labelNames otherwise ++ [LabelTag.ifEnd.name number])) := by
    simp [conditionalCode, Command.labelName?, hcondition]
  rw [hnames]
  simp only [List.perm_iff_count, List.map_cons, List.map_nil, List.count_cons,
    List.count_append, List.count_nil]
  omega

/-- The labels of a loop stand around those of its body. -/
theorem loop {condition body : List Command} {number : Nat}
    (hcondition : labelNames condition = [])
    (hbody : Numbered (labelNames body) (number + 1) high) (hhigh : number + 1 ≤ high) :
    Numbered (labelNames (loopCode number condition body)) number high := by
  have htags : [LabelTag.whileStart, .whileEnd].Nodup := by decide
  refine ((of_tags htags number).append hbody (by omega) hhigh).perm ?_
  have hnames : labelNames (loopCode number condition body) =
      LabelTag.whileStart.name number ::
        (labelNames body ++ [LabelTag.whileEnd.name number]) := by
    simp [loopCode, Command.labelName?, hcondition]
  rw [hnames]
  exact (List.perm_append_singleton _ _).cons _

end Numbered

mutual

/-- The labels of a statement have the numbers that it takes. -/
theorem Statement.numbered (tree : Statement) (number : Nat) :
    Numbered (labelNames (tree.code scope number)) number (number + tree.labels) := by
  match tree with
  | .assign target value =>
    rw [Statement.code, labelNames_append, value.labelNames_code, labelNames_popName]
    exact .nil _ _
  | .store target index value =>
    have hbase : labelNames (scope.pushName target) = [] :=
      labelNames_of_evaluates (evaluates_pushName scope target)
    rw [Statement.code, storeCode, labelNames_append, value.labelNames_code, labelNames_cons,
      labelNames_append, labelNames_append, hbase, index.labelNames_code]
    exact .nil _ _
  -- the labels of a block come behind the number of the statement
  | .ifThen condition block =>
    rw [Statement.code, Statement.labels]
    have hblock : Numbered _ (number + 1) (number + 1 + block.labels) := block.numbered _
    exact .conditional condition.labelNames_code hblock (.nil _ _) (by omega) (by omega)
  | .ifElse condition block otherwise =>
    rw [Statement.code, Statement.labels]
    have hblock : Numbered _ (number + 1) (number + 1 + block.labels) := block.numbered _
    have hother := otherwise.numbered (number + 1 + block.labels)
    have hsum : number + (block.labels + otherwise.labels + 1) =
        number + 1 + block.labels + otherwise.labels := by omega
    rw [hsum]
    exact .conditional condition.labelNames_code hblock hother (by omega) (by omega)
  | .loop condition body =>
    rw [Statement.code, Statement.labels]
    have hbody := body.numbered (number + 1)
    have hsum : number + (body.labels + 1) = number + 1 + body.labels := by omega
    rw [hsum]
    exact .loop condition.labelNames_code hbody (by omega)
  | .invoke call =>
    rw [Statement.code, labelNames_append, labelNames_of_evaluates call.evaluates_code]
    exact .nil _ _
  | .exit none => exact .nil _ _
  | .exit (some value) =>
    rw [Statement.code, labelNames_append, value.labelNames_code]
    exact .nil _ _

/-- The labels of statements in a row. -/
theorem Block.numbered (tree : Block) (number : Nat) :
    Numbered (labelNames (tree.code scope number)) number (number + tree.labels) := by
  match tree with
  | .nil => exact .nil _ _
  | .cons first rest =>
    rw [Block.code, Block.labels, labelNames_append, ← Nat.add_assoc]
    exact (first.numbered number).append (rest.numbered (number + first.labels))
      (by omega) (by omega)

end

/-! ## Labels of a class -/

/-- How many numbers for labels the bodies of subroutines take. -/
def labelsOf : List Subroutine → Nat
  | [] => 0
  | first :: rest => first.body.labels + labelsOf rest

theorem ClassTree.numbered_subroutineCode (tree : ClassTree) (number : Nat)
    (subroutine : Subroutine) :
    Numbered (labelNames (tree.subroutineCode number subroutine)) number
      (number + subroutine.body.labels) := by
  have hentry : labelNames (entryCode (counted tree.fieldCount) subroutine.kind) = [] := by
    cases subroutine.kind <;> rfl
  rw [subroutineCode, labelNames_cons, labelNames_append, hentry,
    List.nil_append]
  exact subroutine.body.numbered number

theorem ClassTree.numbered_codeFrom (tree : ClassTree) (number : Nat)
    (subroutines : List Subroutine) :
    Numbered (labelNames (tree.codeFrom number subroutines)) number
      (number + labelsOf subroutines) := by
  induction subroutines generalizing number with
  | nil => exact .nil _ _
  | cons first rest ih =>
    rw [codeFrom, labelsOf, labelNames_append, ← Nat.add_assoc]
    exact (tree.numbered_subroutineCode number first).append (ih (number + first.body.labels))
      (by omega) (by omega)

/-- No two labels of a class have the same name. -/
theorem ClassTree.nodup_labelNames (tree : ClassTree) : (labelNames tree.code).Nodup :=
  (tree.numbered_codeFrom 0 tree.subroutines).nodup

/-! ## Bodies -/

/-- Where the commands of a body begin, given the subroutines in front of its own. -/
def ClassTree.bodyPosition (tree : ClassTree) (before : List Subroutine)
    (subroutine : Subroutine) : Nat :=
  (tree.codeFrom 0 before).length + 1 + (entryCode (counted tree.fieldCount) subroutine.kind).length

theorem ClassTree.codeFrom_append (tree : ClassTree) (number : Nat)
    (before after : List Subroutine) :
    tree.codeFrom number (before ++ after) =
      tree.codeFrom number before ++ tree.codeFrom (number + labelsOf before) after := by
  induction before generalizing number with
  | nil => rfl
  | cons first rest ih =>
    rw [List.cons_append, codeFrom, codeFrom, labelsOf, ih, List.append_assoc, ← Nat.add_assoc]

/-- The commands of a body stand at its position. -/
theorem ClassTree.codeAt_body {tree : ClassTree} {before after : List Subroutine}
    {subroutine : Subroutine} (hsplit : tree.subroutines = before ++ subroutine :: after) :
    CodeAt tree.code (tree.bodyPosition before subroutine)
      (subroutine.body.code (tree.scope subroutine) (labelsOf before)) := by
  have hcode : tree.code = tree.codeFrom 0 before ++
      (tree.subroutineCode (labelsOf before) subroutine ++
        tree.codeFrom (labelsOf before + subroutine.body.labels) after) := by
    rw [ClassTree.code, hsplit, codeFrom_append, Nat.zero_add, codeFrom]
  have hsubroutine : CodeAt tree.code (tree.codeFrom 0 before).length
      (tree.subroutineCode (labelsOf before) subroutine) := by
    rw [hcode]
    exact .of_append _ _ _
  exact hsubroutine.tail.right

/-! ## Statements -/

/-- A statement with the place of its commands and the number of its first label. -/
structure Site where
  position : Nat
  number : Nat
  statement : Statement

mutual

/-- The sites of a statement and of all statements in it. -/
def Statement.sites (scope : Scope) (position number : Nat) : Statement → List Site
  | .ifThen condition block =>
    ⟨position, number, .ifThen condition block⟩ ::
      block.sites scope (position + 1 + (condition.code scope).length + 1 + 1) (number + 1)
  | .ifElse condition block otherwise =>
    ⟨position, number, .ifElse condition block otherwise⟩ ::
      (block.sites scope (position + 1 + (condition.code scope).length + 1 + 1) (number + 1) ++
        otherwise.sites scope
          (position + 1 + (condition.code scope).length + 1 + 1 +
            (block.code scope (number + 1)).length + 1 + 1)
          (number + 1 + block.labels))
  | .loop condition body =>
    ⟨position, number, .loop condition body⟩ ::
      body.sites scope (position + 1 + (condition.code scope).length + 1 + 1) (number + 1)
  | .assign target value => [⟨position, number, .assign target value⟩]
  | .store target index value => [⟨position, number, .store target index value⟩]
  | .invoke call => [⟨position, number, .invoke call⟩]
  | .exit value => [⟨position, number, .exit value⟩]

/-- The sites of the statements of a block. -/
def Block.sites (scope : Scope) (position number : Nat) : Block → List Site
  | .nil => []
  | .cons first rest =>
    first.sites scope position number ++
      rest.sites scope (position + (first.code scope number).length) (number + first.labels)

end

mutual

/-- The commands of the statement stand at its site as they would stand alone, and the
statement is well scoped if the one around it is. -/
theorem Statement.spec_of_mem_sites {program : List Command} (tree : Statement)
    {position number : Nat} (hcode : CodeAt program position (tree.code scope number))
    (hscoped : tree.Scoped scope) {site : Site}
    (hsite : site ∈ tree.sites scope position number) :
    CodeAt program site.position (site.statement.code scope site.number) ∧
      site.statement.Scoped scope := by
  match tree with
  | .ifThen condition block =>
    rcases List.mem_cons.1 hsite with rfl | hsite
    · exact ⟨hcode, hscoped⟩
    · exact block.spec_of_mem_sites hcode.tail.right.tail.tail.left hscoped.2 hsite
  | .ifElse condition block otherwise =>
    rcases List.mem_cons.1 hsite with rfl | hsite
    · exact ⟨hcode, hscoped⟩
    -- behind the first branch there are a jump and a label
    have hblock := hcode.tail.right.tail.tail
    rcases List.mem_append.1 hsite with hsite | hsite
    · exact block.spec_of_mem_sites hblock.left hscoped.2.1 hsite
    · exact otherwise.spec_of_mem_sites hblock.right.tail.tail.left hscoped.2.2 hsite
  | .loop condition body =>
    rcases List.mem_cons.1 hsite with rfl | hsite
    · exact ⟨hcode, hscoped⟩
    · exact body.spec_of_mem_sites hcode.tail.right.tail.tail.left hscoped.2 hsite
  | .assign _ _ =>
    rw [List.mem_singleton.1 hsite]
    exact ⟨hcode, hscoped⟩
  | .store _ _ _ =>
    rw [List.mem_singleton.1 hsite]
    exact ⟨hcode, hscoped⟩
  | .invoke _ =>
    rw [List.mem_singleton.1 hsite]
    exact ⟨hcode, hscoped⟩
  | .exit _ =>
    rw [List.mem_singleton.1 hsite]
    exact ⟨hcode, hscoped⟩

theorem Block.spec_of_mem_sites {program : List Command} (tree : Block)
    {position number : Nat} (hcode : CodeAt program position (tree.code scope number))
    (hscoped : tree.Scoped scope) {site : Site}
    (hsite : site ∈ tree.sites scope position number) :
    CodeAt program site.position (site.statement.code scope site.number) ∧
      site.statement.Scoped scope := by
  match tree with
  | .nil => exact absurd hsite List.not_mem_nil
  | .cons first rest =>
    rcases List.mem_append.1 hsite with hsite | hsite
    · exact first.spec_of_mem_sites hcode.left hscoped.1 hsite
    · exact rest.spec_of_mem_sites hcode.right hscoped.2 hsite

end

end Jack.Syntax
