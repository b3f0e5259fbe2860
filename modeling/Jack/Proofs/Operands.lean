/-
The memory operands of the code of a class.

Variables are numbered kind by kind, so the index of a variable is below the number of
variables of its kind (`index_lt_countP`). Which number that is depends on the kind: the
locals and arguments of the subroutine, or the fields and statics of the class. `Extents`
holds the four numbers, and a command is `InBounds` if its operand is a place that they
allow.

A name in a body stands for a variable of the subroutine or of the class, so every command
that a body is translated to is in bounds of the numbers of its own subroutine and class
(`Block.inBounds_code`). The commands of the entry are too, and those of a constructor ask
for as many words as the class has fields.
-/
import Mathlib.Data.List.Induction
import Jack.Proofs.StackDiscipline

set_option autoImplicit false

namespace Jack

/-! ## Commands in bounds -/

namespace Vm

/-- How many variables of each kind there are. -/
structure Extents where
  locals : Nat
  arguments : Nat
  fields : Nat
  statics : Nat
  deriving DecidableEq, Repr

/-- Whether a segment has a place of an index. Constants have no places. -/
def Extents.Holds (extents : Extents) : Segment → Int → Prop
  | .constant, _ => False
  | .argument, index => 0 ≤ index ∧ index < extents.arguments
  | .localVar, index => 0 ≤ index ∧ index < extents.locals
  | .static, index => 0 ≤ index ∧ index < extents.statics
  | .this, index => 0 ≤ index ∧ index < extents.fields
  | .that, index => index = 0
  | .pointer, index => index = 0 ∨ index = 1
  | .temp, index => index = 0

/-- Whether the memory operand of a command is a place. A constant that is pushed is no
memory operand. -/
def Command.InBounds (extents : Extents) : Command → Prop
  | .push segment index => segment = .constant ∨ extents.Holds segment index
  | .pop segment index => extents.Holds segment index
  | _ => True

instance (extents : Extents) (segment : Segment) (index : Int) :
    Decidable (extents.Holds segment index) :=
  match segment with
  | .constant => inferInstanceAs (Decidable False)
  | .argument => inferInstanceAs (Decidable (0 ≤ index ∧ index < extents.arguments))
  | .localVar => inferInstanceAs (Decidable (0 ≤ index ∧ index < extents.locals))
  | .static => inferInstanceAs (Decidable (0 ≤ index ∧ index < extents.statics))
  | .this => inferInstanceAs (Decidable (0 ≤ index ∧ index < extents.fields))
  | .that => inferInstanceAs (Decidable (index = 0))
  | .pointer => inferInstanceAs (Decidable (index = 0 ∨ index = 1))
  | .temp => inferInstanceAs (Decidable (index = 0))

instance (extents : Extents) (command : Command) : Decidable (command.InBounds extents) :=
  match command with
  | .push segment index =>
    inferInstanceAs (Decidable (segment = .constant ∨ extents.Holds segment index))
  | .pop segment index => inferInstanceAs (Decidable (extents.Holds segment index))
  | .operation _ => .isTrue trivial
  | .label _ => .isTrue trivial
  | .goto _ => .isTrue trivial
  | .ifGoto _ => .isTrue trivial
  | .call _ _ => .isTrue trivial
  | .function _ _ => .isTrue trivial
  | .ret => .isTrue trivial

/-- Every command of a piece of code is in bounds. -/
def InBounds (extents : Extents) (code : List Command) : Prop :=
  ∀ command ∈ code, command.InBounds extents

instance (extents : Extents) (code : List Command) : Decidable (InBounds extents code) :=
  inferInstanceAs (Decidable (∀ command ∈ code, command.InBounds extents))

namespace InBounds

variable {extents : Extents} {code first second : List Command} {command : Command}

theorem nil (extents : Extents) : InBounds extents [] := fun _ hmem => absurd hmem List.not_mem_nil

theorem cons (h : command.InBounds extents) (h' : InBounds extents code) :
    InBounds extents (command :: code) :=
  List.forall_mem_cons.2 ⟨h, h'⟩

theorem append (h : InBounds extents first) (h' : InBounds extents second) :
    InBounds extents (first ++ second) :=
  List.forall_mem_append.2 ⟨h, h'⟩

end InBounds

end Vm

namespace Syntax

open Vm (Command Extents InBounds)

/-! ## The code of a scope in bounds -/

/-- Every variable of a scope has a place. -/
def Scope.Fits (scope : Scope) (extents : Extents) : Prop :=
  ∀ name symbol, scope.resolve? name = some symbol →
    extents.Holds symbol.kind.segment symbol.index.toNat

variable {scope : Scope} {extents : Extents}

/-- A name that stands for a variable is pushed from its place, and another one is not pushed at
all. -/
theorem inBounds_pushName (hfits : scope.Fits extents) (name : String) :
    InBounds extents (scope.pushName name) := by
  unfold Scope.pushName
  cases hresolve : scope.resolve? name with
  | none => exact .nil extents
  | some symbol => exact .cons (.inr (hfits name symbol hresolve)) (.nil extents)

/-- What is popped into a variable goes to its place. -/
theorem inBounds_popName (hfits : scope.Fits extents) (name : String) :
    InBounds extents (scope.popName name) := by
  unfold Scope.popName
  cases hresolve : scope.resolve? name with
  | none => exact .nil extents
  | some symbol => exact .cons (hfits name symbol hresolve) (.nil extents)

/-- A string is built by calls from constants, so its code names no place. -/
theorem inBounds_stringCode (extents : Extents) (content : String) :
    InBounds extents (stringCode content) := by
  refine .cons (.inl rfl) (.cons trivial ?_)
  intro command hmem
  obtain ⟨c, -, hmem⟩ := List.mem_flatMap.1 hmem
  rcases List.mem_pair.1 hmem with rfl | rfl
  · exact .inl rfl
  · trivial

theorem BinaryOperator.inBounds_command (operator : BinaryOperator) :
    operator.command.InBounds extents := by
  cases operator <;> trivial

mutual

/-- The code of a term is in bounds, by induction over the expressions that it is made of. Besides
its variables it names `pointer 1` and `that 0` for an element, and `pointer 0` for `this`. -/
theorem Term.inBounds_code (tree : Term) (hfits : scope.Fits extents) :
    InBounds extents (tree.code scope) := by
  match tree with
  | .integer value => exact .cons (.inl rfl) (.nil extents)
  | .string content => exact inBounds_stringCode extents content
  | .word constant =>
    refine .cons ?_ (.nil extents)
    cases constant with
    | this => exact .inr (.inl rfl)
    | _ => exact .inl rfl
  | .var name => exact inBounds_pushName hfits name
  | .element array index =>
    refine ((inBounds_pushName hfits array).append (index.inBounds_code hfits)).append ?_
    exact .cons trivial (.cons (.inr rfl) (.cons (.inr rfl) (.nil extents)))
  | .call invoked => exact invoked.inBounds_code hfits
  | .group inner => exact inner.inBounds_code hfits
  | .unary operator operand =>
    refine (operand.inBounds_code hfits).append (.cons ?_ (.nil extents))
    cases operator <;> trivial

theorem Expression.inBounds_code (tree : Expression) (hfits : scope.Fits extents) :
    InBounds extents (tree.code scope) := by
  match tree with
  | .chain first rest => exact (first.inBounds_code hfits).append (rest.inBounds_code hfits)

theorem Operations.inBounds_code (tree : Operations) (hfits : scope.Fits extents) :
    InBounds extents (tree.code scope) := by
  match tree with
  | .nil => exact .nil extents
  | .cons operator operand rest =>
    exact (operand.inBounds_code hfits).append
      (.cons operator.inBounds_command (rest.inBounds_code hfits))

/-- The receiver of a call is pushed like a variable, or is the object itself. -/
theorem Call.inBounds_code (tree : Call) (hfits : scope.Fits extents) :
    InBounds extents (tree.code scope) := by
  match tree with
  | .bare routine list =>
    exact .cons (.inr (.inl rfl))
      ((list.inBounds_code hfits).append (.cons trivial (.nil extents)))
  | .dotted owner routine list =>
    unfold Call.code
    split
    · rename_i symbol hresolve
      exact .cons (.inr (hfits owner symbol hresolve))
        ((list.inBounds_code hfits).append (.cons trivial (.nil extents)))
    · exact (list.inBounds_code hfits).append (.cons trivial (.nil extents))

theorem Arguments.inBounds_code (tree : Arguments) (hfits : scope.Fits extents) :
    InBounds extents (tree.code scope) := by
  match tree with
  | .nil => exact .nil extents
  | .cons first rest => exact (first.inBounds_code hfits).append (rest.inBounds_code hfits)

end

/-- Around a condition and its blocks there are only labels, jumps and a negation. -/
theorem inBounds_conditionalCode {condition block otherwise : List Command}
    (hcondition : InBounds extents condition) (hblock : InBounds extents block)
    (hother : InBounds extents otherwise) (number : Nat) :
    InBounds extents (conditionalCode number condition block otherwise) :=
  .cons trivial (hcondition.append (.cons trivial (.cons trivial (hblock.append
    (.cons trivial (.cons trivial (hother.append (.cons trivial (.nil extents)))))))))

/-- Around a condition and a body there are only labels, jumps and a negation. -/
theorem inBounds_loopCode {condition body : List Command}
    (hcondition : InBounds extents condition) (hbody : InBounds extents body) (number : Nat) :
    InBounds extents (loopCode number condition body) :=
  .cons trivial (hcondition.append (.cons trivial (.cons trivial (hbody.append
    (.cons trivial (.cons trivial (.nil extents)))))))

mutual

/-- The code of a statement is in bounds, whatever number its labels begin with. A store also names
`temp 0`. -/
theorem Statement.inBounds_code (tree : Statement) (hfits : scope.Fits extents) (number : Nat) :
    InBounds extents (tree.code scope number) := by
  match tree with
  | .assign target value =>
    exact (value.inBounds_code hfits).append (inBounds_popName hfits target)
  | .store target index value =>
    refine (value.inBounds_code hfits).append (.cons rfl
      (((inBounds_pushName hfits target).append (index.inBounds_code hfits)).append ?_))
    exact .cons trivial (.cons (.inr rfl) (.cons (.inr rfl) (.cons rfl (.nil extents))))
  | .ifThen condition block =>
    exact inBounds_conditionalCode (condition.inBounds_code hfits) (block.inBounds_code hfits _)
      (.nil extents) number
  | .ifElse condition block otherwise =>
    exact inBounds_conditionalCode (condition.inBounds_code hfits) (block.inBounds_code hfits _)
      (otherwise.inBounds_code hfits _) number
  | .loop condition body =>
    exact inBounds_loopCode (condition.inBounds_code hfits) (body.inBounds_code hfits _) number
  | .invoke call => exact (call.inBounds_code hfits).append (.cons rfl (.nil extents))
  | .exit none => exact .cons (.inl rfl) (.cons trivial (.nil extents))
  | .exit (some value) => exact (value.inBounds_code hfits).append (.cons trivial (.nil extents))

theorem Block.inBounds_code (tree : Block) (hfits : scope.Fits extents) (number : Nat) :
    InBounds extents (tree.code scope number) := by
  match tree with
  | .nil => exact .nil extents
  | .cons first rest =>
    exact (first.inBounds_code hfits number).append (rest.inBounds_code hfits _)

end

/-! ## Variables are numbered kind by kind -/

/-- The index of a variable is below the number of variables of its kind. -/
theorem index_lt_countP {vars : List Variable} {symbol : Symbol} (hmem : symbol ∈ numbered vars) :
    symbol.index.toNat < vars.countP (·.kind = symbol.kind) := by
  obtain ⟨front, back, hsplit⟩ := List.append_of_mem hmem
  rw [← countP_numbered, hsplit, List.countP_append, List.countP_cons_of_pos (by simp),
    index_eq hsplit]
  -- in 16 bits the number of those in front can only get smaller
  exact Nat.lt_of_le_of_lt (Nat.mod_le _ _) (by omega)

/-- What a name stands for is a variable of the subroutine or of the class. -/
theorem Scope.mem_of_resolve? {name : String} {symbol : Symbol}
    (hresolve : scope.resolve? name = some symbol) :
    symbol ∈ scope.subroutineTier ∨ symbol ∈ scope.classTier := by
  rw [Scope.resolve?, Option.orElse_eq_orElse, Option.orElse_eq_or, Option.or_eq_some_iff]
    at hresolve
  rcases hresolve with hfound | ⟨-, hfound⟩
  · exact .inl (List.mem_of_find?_eq_some hfound)
  · exact .inr (List.mem_of_find?_eq_some hfound)

/-! ## Bodies in bounds -/

/-- How many arguments a subroutine has: its parameters, and the object of a method. -/
def Subroutine.argumentCount (subroutine : Subroutine) : Nat :=
  subroutine.parameters.length + if subroutine.kind = .method then 1 else 0

/-- How many statics a class declares. -/
def ClassTree.staticCount (tree : ClassTree) : Nat := tree.vars.countP (·.kind = .static)

/-- The numbers of variables that the body of a subroutine can name. -/
def ClassTree.variableExtents (tree : ClassTree) (subroutine : Subroutine) : Extents where
  locals := subroutine.localCount
  arguments := subroutine.argumentCount
  fields := tree.fieldCount
  statics := tree.staticCount

/-- The variables of a subroutine that are arguments. -/
theorem countP_vars_argument (className : String) (subroutine : Subroutine) :
    (subroutine.vars className).countP (·.kind = .argument) = subroutine.argumentCount := by
  have hlocals : (subroutine.locals.flatMap (Declaration.vars .localVar)).countP
      (fun added => added.kind = .argument) = 0 := by
    rw [List.countP_eq_zero]
    intro added hmem
    obtain ⟨declared, -, hmem⟩ := List.mem_flatMap.1 hmem
    obtain ⟨name, -, rfl⟩ := List.mem_map.1 hmem
    simp
  have hparameters : (subroutine.parameters.map fun parameter =>
      (⟨parameter.name, parameter.type.text, .argument⟩ : Variable)).countP
        (fun added => added.kind = .argument) = subroutine.parameters.length := by
    simp [Function.comp_def]
  rw [Subroutine.vars, List.countP_append, List.countP_append, hlocals, hparameters,
    Subroutine.argumentCount]
  by_cases hkind : subroutine.kind = .method
  · rw [if_pos hkind, if_pos hkind]
    simp [Nat.add_comm]
  · rw [if_neg hkind, if_neg hkind]
    simp

/-- Every variable that a body can name has a place. -/
theorem ClassTree.fits (tree : ClassTree) (subroutine : Subroutine) :
    (tree.scope subroutine).Fits (tree.variableExtents subroutine) := by
  intro name symbol hresolve
  -- a tier has two kinds only, and for each of them its variables are counted by the extents
  rcases Scope.mem_of_resolve? hresolve with hmem | hmem
  · have hindex := index_lt_countP hmem
    obtain ⟨added, hadded, hsame⟩ := exists_mem_of_mem_numbered hmem
    have htier := Subroutine.isClassTier_of_mem hadded
    rw [hsame] at htier
    cases hkind : symbol.kind with
    | static => simp [hkind, VarKind.isClassTier] at htier
    | field => simp [hkind, VarKind.isClassTier] at htier
    | argument =>
      rw [hkind, countP_vars_argument] at hindex
      exact ⟨Int.natCast_nonneg _, Int.ofNat_lt.2 hindex⟩
    | localVar =>
      rw [hkind, Compiler.countP_vars_localVar] at hindex
      exact ⟨Int.natCast_nonneg _, Int.ofNat_lt.2 hindex⟩
  · have hindex := index_lt_countP hmem
    obtain ⟨added, hadded, hsame⟩ := exists_mem_of_mem_numbered hmem
    have htier := ClassTree.isClassTier_of_mem hadded
    rw [hsame] at htier
    cases hkind : symbol.kind with
    | static =>
      rw [hkind] at hindex
      exact ⟨Int.natCast_nonneg _, Int.ofNat_lt.2 hindex⟩
    | field =>
      rw [hkind] at hindex
      exact ⟨Int.natCast_nonneg _, Int.ofNat_lt.2 hindex⟩
    | argument => simp [hkind, VarKind.isClassTier] at htier
    | localVar => simp [hkind, VarKind.isClassTier] at htier

/-- The commands of the entry name no variable but the first argument of a method. -/
theorem ClassTree.inBounds_entryCode (tree : ClassTree) (subroutine : Subroutine) :
    InBounds (tree.variableExtents subroutine)
      (entryCode (counted tree.fieldCount) subroutine.kind) := by
  cases hkind : subroutine.kind with
  | constructor => exact .cons (.inl rfl) (.cons trivial (.cons (.inl rfl) (.nil _)))
  | function => exact .nil _
  | method =>
    have harguments : 0 < subroutine.argumentCount := by
      rw [Subroutine.argumentCount, if_pos hkind]
      exact Nat.succ_pos _
    exact .cons (.inr ⟨Int.le_refl 0, Int.ofNat_lt.2 harguments⟩) (.cons (.inl rfl) (.nil _))

/-- What stands behind a `function` command is the entry and then the body, and both are in
bounds. -/
theorem ClassTree.inBounds_blockBody (tree : ClassTree) (number : Nat) (subroutine : Subroutine) :
    InBounds (tree.variableExtents subroutine) (tree.blockBody number subroutine) :=
  (tree.inBounds_entryCode subroutine).append
    (subroutine.body.inBounds_code (tree.fits subroutine) number)

end Syntax

/-! ## Accepted classes -/

open Syntax
open Vm (Command InBounds blockBehind)

/-- **Operands in bounds.** In the output of an accepted class, every memory operand of a
block is a place: locals as the `function` command of the block counts them, arguments as
its subroutine declares them, and fields and statics as the class declares them. The block
of a constructor begins by asking for as many words as there are fields. For both numbers of
the output 16 bits have to be enough. -/
theorem compileText_operands_in_bounds {source text : String}
    (hok : compileText source = .ok text) :
    ∃ tree : ClassTree, HasTokens source tree.tokens ∧ text = lines tree.code ∧
      (tree.AtMost 65535 →
        ∀ start name count, tree.code[start]? = some (.function name count) →
          ∃ before subroutine after, tree.subroutines = before ++ subroutine :: after ∧
            start = tree.blockPosition before ∧
            name = tree.name ++ "." ++ subroutine.name ∧
            InBounds
              { locals := count
                arguments := subroutine.parameters.length +
                  if subroutine.kind = .method then 1 else 0
                fields := tree.fieldCount
                statics := tree.staticCount }
              (blockBehind tree.code start) ∧
            (subroutine.kind = .constructor → ∃ rest, blockBehind tree.code start =
              .push .constant tree.fieldCount :: .call "Memory.alloc" 1 :: .pop .pointer 0 ::
                rest)) := by
  obtain ⟨tree, hscoped, htokens, htext⟩ := exists_tree_of_compileText hok
  refine ⟨tree, htokens, htext, ?_⟩
  intro hfew start name count hfunction
  obtain ⟨before, subroutine, after, hsplit, rfl, rfl, rfl⟩ :=
    tree.exists_block_of_function hscoped hfunction
  have hlocals : counted subroutine.localCount = subroutine.localCount := by
    have hmem : subroutine ∈ tree.subroutines := by
      rw [hsplit]
      exact List.mem_append_right before List.mem_cons_self
    have hcount := hfew.subroutine_vars subroutine hmem .localVar
    rw [Compiler.countP_vars_localVar] at hcount
    exact counted_of_lt (Nat.lt_succ_of_le hcount)
  have hfields : counted tree.fieldCount = tree.fieldCount :=
    counted_of_lt (Nat.lt_succ_of_le (hfew.class_vars .field))
  -- the counts that the output shows are the ones of the tree, so its extents are those of the body
  refine ⟨before, subroutine, after, hsplit, rfl, rfl, ?_, ?_⟩
  · rw [tree.blockBehind_eq hscoped hsplit, hlocals]
    exact tree.inBounds_blockBody (labelsOf before) subroutine
  · intro hkind
    rw [tree.blockBehind_eq hscoped hsplit, ClassTree.blockBody, hkind, hfields]
    exact ⟨_, rfl⟩

/-- A constructor whose parameter hides the field of the same name. -/
def placingConstructor : Subroutine where
  kind := .constructor
  result := some (.named "P")
  name := "new"
  parameters := [⟨.int, "x"⟩]
  locals := []
  body := .cons (.assign "s" (.chain (.var "x") .nil))
    (.cons (.exit (some (.chain (.word .this) .nil))) .nil)

/-- A method that names a field, its argument and its local. -/
def placingMethod : Subroutine where
  kind := .method
  result := some .int
  name := "at"
  parameters := [⟨.int, "k"⟩]
  locals := [⟨.int, "t", []⟩]
  body := .cons (.assign "t" (.chain (.var "x") (.cons .add (.var "k") .nil)))
    (.cons (.exit (some (.chain (.var "t") .nil))) .nil)

/-- The class of both. -/
def placingTree : ClassTree where
  name := "P"
  declarations := [⟨.field, ⟨.int, "x", []⟩⟩, ⟨.static, ⟨.int, "s", []⟩⟩]
  subroutines := [placingConstructor, placingMethod]

/-- The class as it is written. -/
def placingSource : String :=
  "class P { field int x; static int s; constructor P new(int x) { let s = x; return this; }
    method int at(int k) { var int t; let t = x + k; return t; } }"

theorem hasTokens_placingSource : HasTokens placingSource placingTree.tokens :=
  .of_pulled 55 (by decide +kernel)

/-- The constructor asks for one word and has one argument, and the method has its object
before its parameter. -/
theorem compileText_operands_of_placing :
    compileText placingSource = .ok (lines placingTree.code) ∧
    placingTree.code[0]? = some (.function "P.new" 0) ∧
    placingTree.code[8]? = some (.function "P.at" 1) ∧
    (∃ rest, blockBehind placingTree.code 0 =
      .push .constant 1 :: .call "Memory.alloc" 1 :: .pop .pointer 0 :: rest) ∧
    InBounds ⟨0, 1, 1, 1⟩ (blockBehind placingTree.code 0) ∧
    InBounds ⟨1, 2, 1, 1⟩ (blockBehind placingTree.code 8) := by
  have hcompiled : compileText placingSource = .ok (lines placingTree.code) :=
    compileSource_of_yields placingTree (by decide)
      (Lexer.yields_iff_results.2 hasTokens_placingSource)
  obtain ⟨tree, htokens, -, hblocks⟩ := compileText_operands_in_bounds hcompiled
  obtain rfl : placingTree = tree := htokens.tree_unique hasTokens_placingSource
  -- the two blocks belong to the subroutines that their names say
  have hmem : ∀ {before after : List Subroutine} {subroutine : Subroutine},
      placingTree.subroutines = before ++ subroutine :: after →
        subroutine = placingConstructor ∨ subroutine = placingMethod := by
    intro before after subroutine hsplit
    have hmem : subroutine ∈ placingTree.subroutines := by simp [hsplit]
    simpa [placingTree] using hmem
  have hconstructor : placingTree.code[0]? = some (.function "P.new" 0) := by decide
  have hmethod : placingTree.code[8]? = some (.function "P.at" 1) := by decide
  obtain ⟨_, first, _, hfirst, -, hfirstName, hfirstBounds, hwords⟩ :=
    hblocks (by decide) 0 "P.new" 0 hconstructor
  obtain ⟨_, second, _, hsecond, -, hsecondName, hsecondBounds, -⟩ :=
    hblocks (by decide) 8 "P.at" 1 hmethod
  obtain rfl : first = placingConstructor := by
    rcases hmem hfirst with h | h
    · exact h
    · exact absurd hfirstName (by rw [h]; decide)
  obtain rfl : second = placingMethod := by
    rcases hmem hsecond with h | h
    · exact absurd hsecondName (by rw [h]; decide)
    · exact h
  exact ⟨hcompiled, hconstructor, hmethod, hwords rfl, hfirstBounds, hsecondBounds⟩

end Jack
