/-
How deep the stack is behind a piece of code.

A command that goes on to the next one takes a fixed number of values from the
stack and puts a fixed number there, whatever the values are. So the depth behind
straight code can be computed from the depth in front of it (`depthBehind`), and
there is none when the code would pop below its base or does not go straight on.

The commands of an expression leave one value more than they found. Those of
arguments leave as many as there are arguments, which is what the call behind them
takes.
-/
import Jack.Proofs.Machine
import Jack.Proofs.Translation

set_option autoImplicit false

namespace Jack

namespace Vm

/-- How many values an operation works on. -/
def Operation.operands : Operation → Nat
  | .neg => 1
  | .not => 1
  | _ => 2

/-- How many values a command takes from the stack and how many it puts there, if it
goes on to the next command. -/
def Command.effect? : Command → Option (Nat × Nat)
  | .push _ _ => some (0, 1)
  | .pop _ _ => some (1, 0)
  | .operation op => some (op.operands, 1)
  | .label _ => some (0, 0)
  | .call _ count => some (count, 1)
  | _ => none

/-- The depth of the stack behind a command. -/
def Command.depthBehind (command : Command) (depth : Nat) : Option Nat :=
  command.effect?.bind fun effect =>
    if effect.1 ≤ depth then some (depth - effect.1 + effect.2) else none

/-- The depth of the stack behind straight code. -/
def depthBehind : List Command → Nat → Option Nat
  | [], depth => some depth
  | command :: rest, depth => (command.depthBehind depth).bind (depthBehind rest)

@[simp] theorem depthBehind_nil (depth : Nat) : depthBehind [] depth = some depth := rfl

@[simp] theorem depthBehind_cons (command : Command) (rest : List Command) (depth : Nat) :
    depthBehind (command :: rest) depth = (command.depthBehind depth).bind (depthBehind rest) :=
  rfl

/-- Appended pieces of code are straight if each is, the second one from the depth behind the
first. -/
@[simp] theorem depthBehind_append (first second : List Command) (depth : Nat) :
    depthBehind (first ++ second) depth = (depthBehind first depth).bind (depthBehind second) := by
  induction first generalizing depth with
  | nil => rfl
  | cons command rest ih =>
    rw [List.cons_append, depthBehind_cons, depthBehind_cons, Option.bind_assoc]
    exact Option.bind_congr fun middle _ => ih middle

/-- What a command with a known effect does to a stack that is deep enough. -/
theorem Command.depthBehind_of_effect {command : Command} {taken given : Nat}
    (heffect : command.effect? = some (taken, given)) (depth : Nat) :
    command.depthBehind (depth + taken) = some (depth + given) := by
  unfold Command.depthBehind
  rw [heffect, Option.bind_some, if_pos (Nat.le_add_left taken depth), Nat.add_sub_cancel]

/-- The first command of code with a depth behind it has an effect, and a stack that is
deep enough for it. -/
theorem exists_effect_of_depthBehind {command : Command} {rest : List Command}
    {depth final : Nat} (h : depthBehind (command :: rest) depth = some final) :
    ∃ taken given, command.effect? = some (taken, given) ∧ taken ≤ depth ∧
      depthBehind rest (depth - taken + given) = some final := by
  obtain ⟨middle, hcommand, hrest⟩ := Option.bind_eq_some_iff.1 h
  obtain ⟨⟨taken, given⟩, heffect, hmiddle⟩ := Option.bind_eq_some_iff.1 hcommand
  by_cases henough : taken ≤ depth
  · rw [if_pos henough] at hmiddle
    cases hmiddle
    exact ⟨taken, given, heffect, henough, hrest⟩
  · rw [if_neg henough] at hmiddle
    cases hmiddle

end Vm

namespace Syntax

open Vm (Command depthBehind)

variable {scope : Scope}

/-- Pushing a declared variable. -/
theorem depthBehind_pushName {name : String} (hdeclared : scope.Declares name) (depth : Nat) :
    depthBehind (scope.pushName name) depth = some (depth + 1) := by
  obtain ⟨symbol, hresolve⟩ := Scope.declares_iff.1 hdeclared
  unfold Scope.pushName
  rw [hresolve]
  rfl

/-- Two operands become one value, by an operation or by a call. -/
theorem BinaryOperator.depthBehind_command (operator : BinaryOperator) (depth : Nat) :
    operator.command.depthBehind (depth + 2) = some (depth + 1) := by
  have heffect : operator.command.effect? = some (2, 1) := by cases operator <;> rfl
  exact Command.depthBehind_of_effect heffect depth

/-- One operand becomes one value. -/
theorem UnaryOperator.depthBehind_command (operator : UnaryOperator) (depth : Nat) :
    operator.command.depthBehind (depth + 1) = some (depth + 1) := by
  have heffect : operator.command.effect? = some (1, 1) := by cases operator <;> rfl
  exact Command.depthBehind_of_effect heffect depth

/-- A call takes its arguments and leaves its result. -/
theorem depthBehind_call (callee : String) (count depth : Nat) :
    depthBehind [.call callee count] (depth + count) = some (depth + 1) := by
  rw [Vm.depthBehind_cons, Command.depthBehind_of_effect rfl]
  rfl

/-- A call with a receiver, which is below the arguments. -/
theorem depthBehind_received {segment : Vm.Segment} {index : Int} {listCode : List Command}
    {callee : String} {count depth : Nat}
    (hlist : depthBehind listCode (depth + 1) = some (depth + 1 + count)) :
    depthBehind (.push segment index :: (listCode ++ [.call callee (count + 1)])) depth =
      some (depth + 1) := by
  have hpush : (Command.push segment index).depthBehind depth = some (depth + 1) := rfl
  -- the receiver counts as one more argument, pushed first
  rw [Vm.depthBehind_cons, hpush, Option.bind_some, Vm.depthBehind_append, hlist,
    Option.bind_some, Nat.add_right_comm]
  exact depthBehind_call callee (count + 1) depth

/-- A string is one value from its first command on, and every further character keeps it so. -/
theorem depthBehind_stringCode (content : String) (depth : Nat) :
    depthBehind (stringCode content) depth = some (depth + 1) := by
  -- the string itself stays on the stack between two characters
  have hcharacters : ∀ characters : List Char, depthBehind (characters.flatMap fun c =>
      [.push .constant c.toNat, .call "String.appendChar" 2]) (depth + 1) = some (depth + 1) := by
    intro characters
    induction characters with
    | nil => rfl
    | cons c rest ih =>
      rw [List.flatMap_cons, Vm.depthBehind_append]
      exact ih
  exact hcharacters content.toList

mutual

/-- A term leaves one value. The cases follow the grammar, and each is its parts in the order in
which the code has them. -/
theorem Term.depthBehind_code (tree : Term) (hscoped : tree.Scoped scope) (depth : Nat) :
    depthBehind (tree.code scope) depth = some (depth + 1) := by
  match tree with
  | .integer _ => rfl
  | .string content => exact depthBehind_stringCode content depth
  | .word constant => cases constant <;> rfl
  | .var name => exact depthBehind_pushName hscoped depth
  | .element array index =>
    rw [Term.code, Vm.depthBehind_append, Vm.depthBehind_append, depthBehind_pushName hscoped.1,
      Option.bind_some, index.depthBehind_code hscoped.2]
    rfl
  | .call invoked => exact invoked.depthBehind_code hscoped depth
  | .group inner => exact inner.depthBehind_code hscoped depth
  -- the operation is the last command
  | .unary operator operand =>
    rw [Term.code, Vm.depthBehind_append, operand.depthBehind_code hscoped, Option.bind_some,
      Vm.depthBehind_cons, operator.depthBehind_command]
    rfl

theorem Expression.depthBehind_code (tree : Expression) (hscoped : tree.Scoped scope)
    (depth : Nat) : depthBehind (tree.code scope) depth = some (depth + 1) := by
  match tree with
  | .chain first rest =>
    rw [Expression.code, Vm.depthBehind_append, first.depthBehind_code hscoped.1,
      Option.bind_some, rest.depthBehind_code hscoped.2]

/-- The operations work on the value that is on top of the stack. -/
theorem Operations.depthBehind_code (tree : Operations) (hscoped : tree.Scoped scope)
    (depth : Nat) : depthBehind (tree.code scope) (depth + 1) = some (depth + 1) := by
  match tree with
  | .nil => rfl
  | .cons operator operand rest =>
    rw [Operations.code, Vm.depthBehind_append, operand.depthBehind_code hscoped.1,
      Option.bind_some, Vm.depthBehind_cons, operator.depthBehind_command, Option.bind_some,
      rest.depthBehind_code hscoped.2]

/-- A call leaves its result, and the receiver below the arguments counts as one of them. -/
theorem Call.depthBehind_code (tree : Call) (hscoped : tree.Scoped scope) (depth : Nat) :
    depthBehind (tree.code scope) depth = some (depth + 1) := by
  match tree with
  | .bare routine list =>
    rw [Call.code]
    exact depthBehind_received (list.depthBehind_code hscoped.1 (depth + 1))
  | .dotted owner routine list =>
    unfold Call.code
    split
    · exact depthBehind_received (list.depthBehind_code hscoped.1 (depth + 1))
    · rw [Vm.depthBehind_append, list.depthBehind_code hscoped.1, Option.bind_some]
      exact depthBehind_call _ list.length depth

/-- Every argument leaves its value. -/
theorem Arguments.depthBehind_code (tree : Arguments) (hscoped : tree.Scoped scope)
    (depth : Nat) : depthBehind (tree.code scope) depth = some (depth + tree.length) := by
  match tree with
  | .nil => rfl
  | .cons first rest =>
    rw [Arguments.code, Vm.depthBehind_append, first.depthBehind_code hscoped.1,
      Option.bind_some, rest.depthBehind_code hscoped.2, Arguments.length, Nat.add_right_comm,
      Nat.add_assoc]

end

end Syntax

end Jack
