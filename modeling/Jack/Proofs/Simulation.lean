/-
The commands of a tree do what the tree means.

A machine that stands before the commands of an expression runs through them to
their end: the value of the expression is on top of the stack, the memory is that
of the evaluation, and the stack below and `temp` are as they were. Only
`pointer 1` may have changed (`Arrives`). Statements leave the stack as it was, or
arrive at a `return` with the value on top (`Finishes`).

A command names a variable by its index, and the meaning of a name is the place of
its variable. So the scope has to be exact: 16 bits are enough for the places of its
variables.

Expressions are followed along their trees. Statements are followed along the
derivation of their run, since a loop comes back to itself; what makes its jumps
arrive is that the labels of the program are unique (`Block.Runs.finishes`).
-/
import Jack.Proofs.AcceptedClass
import Jack.Proofs.Layout
import Jack.Proofs.Semantics

set_option autoImplicit false

namespace Jack

open Vm (Command Word Memory Oracle Machine CodeAt)

/-! ## Arriving behind a piece of code -/

namespace Vm.Machine

variable {E : Type} {program : List Command} {oracle : Oracle E} {machine : Machine E}

/-- A machine that has moved on by some commands and left `temp` alone. -/
def after (machine : Machine E) (length : Nat) (stack : List Word) (memory : Memory E)
    (that : Word) : Machine E :=
  { position := machine.position + length, stack, memory, that, temp := machine.temp }

/-- A machine that has popped a value into `temp 0`. -/
def park (machine : Machine E) (value : Word) (rest : List Word) : Machine E :=
  { machine with
    position := machine.position + 1
    stack := rest
    temp := Function.update machine.temp 0 value }

/-- Popping a value into `temp 0`. -/
theorem execute_popTemp {value : Word} {rest : List Word}
    (hstack : machine.stack = value :: rest) :
    machine.execute program oracle (.pop .temp 0) = some (machine.park value rest) := by
  rw [execute, hstack]
  rfl

/-- Setting `pointer 1`. -/
theorem execute_popPointer {address : Word} {rest : List Word}
    (hstack : machine.stack = address :: rest) :
    machine.execute program oracle (.pop .pointer 1) =
      some (machine.after 1 rest machine.memory address) := by
  rw [execute, hstack]
  rfl

/-- Pushing the value that waits in `temp 0`. -/
theorem execute_pushTemp (machine : Machine E) :
    machine.execute program oracle (.push .temp 0) =
      some (machine.after 1 (machine.temp 0 :: machine.stack) machine.memory machine.that) := rfl

/-- Popping a value to where `pointer 1` points. -/
theorem execute_popThat {value : Word} {rest : List Word}
    (hstack : machine.stack = value :: rest) :
    machine.execute program oracle (.pop .that 0) =
      some (machine.after 1 rest (machine.memory.setHeap machine.that value) machine.that) := by
  simp [execute, hstack, next, write, after, setHeap, Memory.setHeap]

/-- Running leads past some commands, with a known stack and memory behind them. -/
def Arrives (program : List Command) (oracle : Oracle E) (machine : Machine E) (length : Nat)
    (stack : List Word) (memory : Memory E) : Prop :=
  ∃ that, Reaches program oracle machine (machine.after length stack memory that)

namespace Arrives

variable {stack more : List Word} {memory final : Memory E} {length count : Nat}

theorem refl (machine : Machine E) :
    Arrives program oracle machine 0 machine.stack machine.memory :=
  ⟨machine.that, Reaches.refl machine⟩

theorem trans (h : Arrives program oracle machine length stack memory)
    (h' : ∀ that, Arrives program oracle (machine.after length stack memory that) count more
      final) :
    Arrives program oracle machine (length + count) more final := by
  obtain ⟨that, hreach⟩ := h
  obtain ⟨last, hreach'⟩ := h' that
  refine ⟨last, hreach.trans ?_⟩
  simpa [after, Nat.add_assoc] using hreach'

/-- One command. -/
theorem of_execute (that : Word) {command : Command} {code : List Command}
    (hcode : CodeAt program machine.position (command :: code))
    (hexecute : machine.execute program oracle command = some (machine.after 1 stack memory that)) :
    Arrives program oracle machine 1 stack memory :=
  ⟨that, Reaches.of_execute hcode hexecute⟩

theorem push {segment : Segment} {index : Int} {code : List Command}
    (hcode : CodeAt program machine.position (.push segment index :: code)) :
    Arrives program oracle machine 1 (machine.read segment index :: machine.stack) machine.memory :=
  of_execute machine.that hcode rfl

theorem operation {op : Operation} {code : List Command}
    (hcode : CodeAt program machine.position (.operation op :: code))
    (happly : op.apply machine.stack = some stack) :
    Arrives program oracle machine 1 stack machine.memory := by
  refine of_execute machine.that hcode ?_
  rw [execute, happly]
  rfl

theorem label {name : String} {code : List Command}
    (hcode : CodeAt program machine.position (.label name :: code)) :
    Arrives program oracle machine 1 machine.stack machine.memory :=
  of_execute machine.that hcode rfl

/-- A jump to a label further on. -/
theorem goto {name : String} {code : List Command} {target : Nat}
    (hcode : CodeAt program machine.position (.goto name :: code))
    (hlabel : labelPosition program name = some target)
    (htarget : target = machine.position + length) :
    Arrives program oracle machine length machine.stack machine.memory := by
  subst htarget
  refine ⟨machine.that, Reaches.of_execute hcode ?_⟩
  rw [execute, jump, hlabel]
  rfl

/-- A call, with the values that it passes on top of the stack. -/
theorem call {callee : String} (values : List Word) {rest : List Word} {value : Word}
    {code : List Command} {count : Nat}
    (hcode : CodeAt program machine.position (.call callee count :: code))
    (hcount : count = values.length) (hstack : machine.stack = values.reverse ++ rest)
    (hcall : machine.memory.call oracle callee values = some (value, memory)) :
    Arrives program oracle machine 1 (value :: rest) memory := by
  obtain ⟨answer, horacle, hanswer⟩ := Option.map_eq_some_iff.1 hcall
  obtain ⟨rfl, rfl⟩ := Prod.mk.inj hanswer
  have hlength : values.reverse.length = count := by rw [List.length_reverse, hcount]
  have htake : (machine.stack.take count).reverse = values := by
    rw [hstack, ← hlength, List.take_left, List.reverse_reverse]
  have hdrop : machine.stack.drop count = rest := by
    rw [hstack, ← hlength, List.drop_left]
  have henough : count ≤ machine.stack.length := by
    rw [hstack, List.length_append, hlength]
    exact Nat.le_add_right _ _
  refine of_execute machine.that hcode ?_
  rw [execute, if_pos henough, htake, horacle, Option.map_some, hdrop]
  rfl

/-- Setting `pointer 1`, and reading the word that it then points to. -/
theorem readThrough {address : Word} {rest : List Word} {code : List Command}
    (hcode : CodeAt program machine.position (.pop .pointer 1 :: .push .that 0 :: code))
    (hstack : machine.stack = address :: rest) :
    Arrives program oracle machine 2 (machine.memory.world.heap address :: rest)
      machine.memory := by
  have hpush : (machine.after 1 rest machine.memory address).execute program oracle
      (.push .that 0) = some (machine.after 2 (machine.memory.world.heap address :: rest)
        machine.memory address) := by
    simp [execute, next, read, after]
  exact ⟨address, (Reaches.of_execute hcode (execute_popPointer hstack)).trans
    (Reaches.of_execute hcode.tail hpush)⟩

end Arrives

end Vm.Machine

namespace Syntax

open Vm.Machine (Arrives)

variable {E : Type} {program : List Command} {oracle : Oracle E} {scope : Scope}

/-! ## Names, operators and constants -/

/-- Pushing a variable. -/
theorem pushOf_arrives {machine : Machine E} {symbol : Symbol} {code : List Command}
    (hplace : symbol.index.toNat = scope.place symbol)
    (hcode : CodeAt program machine.position (pushOf symbol :: code)) :
    Arrives program oracle machine 1 (machine.memory.fetch (scope.cell symbol) :: machine.stack)
      machine.memory := by
  have hpush : Arrives program oracle machine 1 _ _ := .push hcode
  have hread : machine.read symbol.kind.segment symbol.index.toNat =
      machine.memory.fetch (scope.cell symbol) := by
    rw [Vm.Memory.fetch, Scope.cell, hplace]
    cases symbol.kind <;> simp [VarKind.segment, Vm.Machine.read]
  rwa [hread] at hpush

/-- Pushing the variable of a name. -/
theorem pushName_arrives (hexact : scope.Exact) {machine : Machine E} {name : String}
    {symbol : Symbol} (hresolve : scope.resolve? name = some symbol)
    (hcode : CodeAt program machine.position (scope.pushName name)) :
    Arrives program oracle machine (scope.pushName name).length
      (machine.memory.fetch (scope.cell symbol) :: machine.stack) machine.memory := by
  have hpush : scope.pushName name = [pushOf symbol] := by
    rw [Scope.pushName, hresolve]
    rfl
  rw [hpush] at hcode ⊢
  exact pushOf_arrives (hexact name symbol hresolve) hcode

theorem unary_arrives {machine : Machine E} (operator : UnaryOperator) {operand : Word}
    {rest : List Word} {code : List Command}
    (hcode : CodeAt program machine.position (operator.command :: code))
    (hstack : machine.stack = operand :: rest) :
    Arrives program oracle machine 1 (operator.eval operand :: rest) machine.memory := by
  cases operator with
  | negate => exact .operation hcode (by rw [hstack]; rfl)
  | complement => exact .operation hcode (by rw [hstack]; rfl)

theorem binary_arrives {machine : Machine E} (operator : BinaryOperator) {first second value : Word}
    {rest : List Word} {memory : Memory E} {code : List Command}
    (hcode : CodeAt program machine.position (operator.command :: code))
    (hstack : machine.stack = second :: first :: rest)
    (heval : operator.eval oracle first second machine.memory = some (value, memory)) :
    Arrives program oracle machine 1 (value :: rest) memory := by
  cases operator with
  | multiply => exact .call [first, second] hcode rfl hstack heval
  | divide => exact .call [first, second] hcode rfl hstack heval
  | _ =>
    obtain ⟨rfl, rfl⟩ := Prod.mk.inj (Option.some.inj heval)
    exact .operation hcode (by rw [hstack]; rfl)

theorem word_arrives {machine : Machine E} (word : ConstantWord) {code : List Command}
    (hcode : CodeAt program machine.position (word.command :: code)) :
    Arrives program oracle machine 1 (word.eval machine.memory :: machine.stack)
      machine.memory := by
  cases word <;> exact .push hcode

/-- The characters of a string constant. -/
theorem appendAll_arrives (characters : List Char) {machine : Machine E} {object value : Word}
    {rest : List Word} {memory : Memory E}
    (hcode : CodeAt program machine.position
      (characters.flatMap fun c => [.push .constant c.toNat, .call "String.appendChar" 2]))
    (hstack : machine.stack = object :: rest)
    (heval : appendAll oracle characters object machine.memory = some (value, memory)) :
    Arrives program oracle machine
      (characters.flatMap fun c =>
        [Command.push .constant c.toNat, .call "String.appendChar" 2]).length
      (value :: rest) memory := by
  -- each character replaces the string on top of the stack by the one that the call answers
  induction characters generalizing machine object with
  | nil =>
    obtain ⟨rfl, rfl⟩ := Prod.mk.inj (Option.some.inj heval)
    rw [← hstack]
    exact .refl machine
  | cons c others ih =>
    rw [List.flatMap_cons] at hcode ⊢
    obtain ⟨⟨object', middle⟩, hcall, hothers⟩ := Option.bind_eq_some_iff.1 heval
    rw [List.length_append]
    refine Arrives.trans ?_ fun that => ih hcode.right rfl hothers
    refine (Arrives.push hcode.left).trans fun that => ?_
    refine Arrives.call [object, BitVec.ofNat 16 c.toNat] hcode.left.tail rfl ?_ hcall
    simp [Vm.Machine.after, Vm.Machine.read, hstack]

theorem string_arrives {machine : Machine E} (content : String) {value : Word} {memory : Memory E}
    (hcode : CodeAt program machine.position (stringCode content))
    (heval : (Term.string content).eval oracle scope machine.memory = some (value, memory)) :
    Arrives program oracle machine (stringCode content).length (value :: machine.stack) memory := by
  obtain ⟨⟨object, middle⟩, hcall, hothers⟩ := Option.bind_eq_some_iff.1 heval
  have hmade : Arrives program oracle machine (1 + 1) (object :: machine.stack) middle := by
    refine (Arrives.push hcode).trans fun that => ?_
    refine Arrives.call [BitVec.ofNat 16 content.length] hcode.tail rfl ?_ hcall
    simp [Vm.Machine.after, Vm.Machine.read]
  have hall := hmade.trans fun that =>
    appendAll_arrives content.toList hcode.tail.tail rfl hothers
  have hlength : (stringCode content).length = 1 + 1 + (content.toList.flatMap fun c =>
      [Command.push .constant c.toNat, .call "String.appendChar" 2]).length := by
    rw [stringCode, List.length_cons, List.length_cons]
    omega
  rw [hlength]
  exact hall

/-! ## Expressions -/

/-- There are as many values as arguments. -/
theorem Arguments.length_of_eval (tree : Arguments) {memory final : Memory E} {values : List Word}
    (heval : tree.eval oracle scope memory = some (values, final)) :
    values.length = tree.length := by
  match tree with
  | .nil =>
    obtain ⟨rfl, rfl⟩ := Prod.mk.inj (Option.some.inj heval)
    rfl
  | .cons first others =>
    obtain ⟨⟨value, middle⟩, -, hrest⟩ := Option.bind_eq_some_iff.1 heval
    obtain ⟨⟨found, last⟩, hothers, hpair⟩ := Option.bind_eq_some_iff.1 hrest
    obtain ⟨rfl, rfl⟩ := Prod.mk.inj (Option.some.inj hpair)
    rw [List.length_cons, Arguments.length, others.length_of_eval hothers]

/-- A call whose receiver has been pushed, given how its arguments go. -/
theorem received_arrives {machine : Machine E} {receiver value : Word} {values : List Word}
    {middle memory : Memory E} {callee : String} {count : Nat} {listCode : List Command}
    (hreceiver : Arrives program oracle machine 1 (receiver :: machine.stack) machine.memory)
    (hcode : CodeAt program (machine.position + 1) (listCode ++ [.call callee (count + 1)]))
    (hcount : values.length = count)
    (hlist : ∀ that, Arrives program oracle
      (machine.after 1 (receiver :: machine.stack) machine.memory that) listCode.length
      (values.reverse ++ receiver :: machine.stack) middle)
    (hcall : middle.call oracle callee (receiver :: values) = some (value, memory)) :
    Arrives program oracle machine (1 + (listCode.length + 1)) (value :: machine.stack) memory := by
  have hbehind := hcode.right
  rw [Nat.add_assoc] at hbehind
  rw [← Nat.add_assoc]
  refine (hreceiver.trans hlist).trans fun that => ?_
  refine Arrives.call (receiver :: values) hbehind ?_ ?_ hcall
  · rw [List.length_cons, hcount]
  · simp [Vm.Machine.after]

mutual

theorem Term.arrives (tree : Term) (hexact : scope.Exact) (machine : Machine E) {value : Word}
    {memory : Memory E} (hcode : CodeAt program machine.position (tree.code scope))
    (heval : tree.eval oracle scope machine.memory = some (value, memory)) :
    Arrives program oracle machine (tree.code scope).length (value :: machine.stack) memory := by
  match tree with
  | .integer number =>
    obtain ⟨rfl, rfl⟩ := Prod.mk.inj (Option.some.inj heval)
    exact .push hcode
  | .string content => exact string_arrives content hcode heval
  | .word constant =>
    obtain ⟨rfl, rfl⟩ := Prod.mk.inj (Option.some.inj heval)
    exact word_arrives constant hcode
  | .var name =>
    obtain ⟨symbol, hresolve, hpair⟩ := Option.bind_eq_some_iff.1 heval
    obtain ⟨rfl, rfl⟩ := Prod.mk.inj (Option.some.inj hpair)
    exact pushName_arrives hexact hresolve hcode
  | .element array index =>
    obtain ⟨symbol, hresolve, hrest⟩ := Option.bind_eq_some_iff.1 heval
    obtain ⟨⟨offset, middle⟩, hindex, hpair⟩ := Option.bind_eq_some_iff.1 hrest
    obtain ⟨rfl, rfl⟩ := Prod.mk.inj (Option.some.inj hpair)
    -- the index may set `pointer 1` itself, but it is set again behind the `add`
    have hbase : Arrives program oracle machine _ _ _ :=
      pushName_arrives hexact hresolve hcode.left.left
    have hboth : Arrives program oracle machine _
        (offset :: machine.memory.fetch (scope.cell symbol) :: machine.stack) middle :=
      hbase.trans fun that =>
        index.arrives hexact (machine.after _ _ _ that) hcode.left.right hindex
    rw [← List.length_append] at hboth
    have hadded := hboth.trans fun that => Arrives.operation hcode.right rfl
    have hread : Arrives program oracle machine
        ((scope.pushName array ++ index.code scope).length + 1 + 2)
        (middle.world.heap (machine.memory.fetch (scope.cell symbol) + offset) :: machine.stack)
        middle :=
      hadded.trans fun that => Arrives.readThrough hcode.right.tail rfl
    rw [Term.code, List.length_append]
    exact hread
  | .call invoked => exact invoked.arrives hexact machine hcode heval
  | .group inner => exact inner.arrives hexact machine hcode heval
  | .unary operator operand =>
    obtain ⟨⟨found, middle⟩, hoperand, hpair⟩ := Option.bind_eq_some_iff.1 heval
    obtain ⟨rfl, rfl⟩ := Prod.mk.inj (Option.some.inj hpair)
    have hfirst := operand.arrives hexact machine hcode.left hoperand
    rw [Term.code, List.length_append]
    exact hfirst.trans fun that => unary_arrives operator hcode.right rfl

theorem Expression.arrives (tree : Expression) (hexact : scope.Exact) (machine : Machine E)
    {value : Word} {memory : Memory E} (hcode : CodeAt program machine.position (tree.code scope))
    (heval : tree.eval oracle scope machine.memory = some (value, memory)) :
    Arrives program oracle machine (tree.code scope).length (value :: machine.stack) memory := by
  match tree with
  | .chain first others =>
    obtain ⟨⟨found, middle⟩, hfirst, hothers⟩ := Option.bind_eq_some_iff.1 heval
    rw [Expression.code, List.length_append]
    exact (first.arrives hexact machine hcode.left hfirst).trans fun that =>
      others.arrives hexact (machine.after _ _ _ that) hcode.right rfl hothers

/-- The operations work on the value that is on top of the stack. -/
theorem Operations.arrives (tree : Operations) (hexact : scope.Exact) (machine : Machine E)
    {first value : Word} {rest : List Word} {memory : Memory E}
    (hcode : CodeAt program machine.position (tree.code scope))
    (hstack : machine.stack = first :: rest)
    (heval : tree.eval oracle scope first machine.memory = some (value, memory)) :
    Arrives program oracle machine (tree.code scope).length (value :: rest) memory := by
  match tree with
  | .nil =>
    obtain ⟨rfl, rfl⟩ := Prod.mk.inj (Option.some.inj heval)
    rw [← hstack]
    exact .refl machine
  | .cons operator operand others =>
    obtain ⟨⟨second, middle⟩, hoperand, hrest⟩ := Option.bind_eq_some_iff.1 heval
    obtain ⟨⟨result, last⟩, hoperator, hothers⟩ := Option.bind_eq_some_iff.1 hrest
    have hsecond := operand.arrives hexact machine hcode.left hoperand
    rw [hstack] at hsecond
    have hresult := hsecond.trans fun that => binary_arrives operator hcode.right rfl hoperator
    have hall := hresult.trans fun that =>
      others.arrives hexact (machine.after _ _ _ that) hcode.right.tail rfl hothers
    rw [Operations.code, List.length_append, List.length_cons, Nat.add_comm _ 1, ← Nat.add_assoc]
    exact hall

theorem Call.arrives (tree : Call) (hexact : scope.Exact) (machine : Machine E) {value : Word}
    {memory : Memory E} (hcode : CodeAt program machine.position (tree.code scope))
    (heval : tree.eval oracle scope machine.memory = some (value, memory)) :
    Arrives program oracle machine (tree.code scope).length (value :: machine.stack) memory := by
  match tree with
  | .bare routine list =>
    obtain ⟨⟨values, middle⟩, hlist, hcall⟩ := Option.bind_eq_some_iff.1 heval
    have hreceiver : Arrives program oracle machine 1 _ _ := .push hcode
    have hall := received_arrives hreceiver hcode.tail (list.length_of_eval hlist)
      (fun that => list.arrives hexact (machine.after _ _ _ that) hcode.tail.left hlist) hcall
    rwa [Call.code, List.length_cons, List.length_append, List.length_singleton, Nat.add_comm _ 1]
  | .dotted owner routine list =>
    rw [Call.eval] at heval
    rw [Call.code] at hcode ⊢
    -- a variable is pushed as the receiver, a class is not
    cases hresolve : scope.resolve? owner with
    | some symbol =>
      rw [hresolve] at heval hcode
      obtain ⟨⟨values, middle⟩, hlist, hcall⟩ := Option.bind_eq_some_iff.1 heval
      have hreceiver : Arrives program oracle machine 1 _ _ :=
        pushOf_arrives (hexact owner symbol hresolve) hcode
      have hall := received_arrives hreceiver hcode.tail (list.length_of_eval hlist)
        (fun that => list.arrives hexact (machine.after _ _ _ that) hcode.tail.left hlist) hcall
      simpa [Nat.add_comm] using hall
    | none =>
      rw [hresolve] at heval hcode
      obtain ⟨⟨values, middle⟩, hlist, hcall⟩ := Option.bind_eq_some_iff.1 heval
      have hvalues := list.arrives hexact machine hcode.left hlist
      have hall := hvalues.trans fun that =>
        Arrives.call values hcode.right (list.length_of_eval hlist).symm rfl hcall
      simpa using hall

theorem Arguments.arrives (tree : Arguments) (hexact : scope.Exact) (machine : Machine E)
    {values : List Word} {memory : Memory E} (hcode : CodeAt program machine.position (tree.code scope))
    (heval : tree.eval oracle scope machine.memory = some (values, memory)) :
    Arrives program oracle machine (tree.code scope).length (values.reverse ++ machine.stack)
      memory := by
  match tree with
  | .nil =>
    obtain ⟨rfl, rfl⟩ := Prod.mk.inj (Option.some.inj heval)
    exact .refl machine
  | .cons first others =>
    obtain ⟨⟨value, middle⟩, hfirst, hrest⟩ := Option.bind_eq_some_iff.1 heval
    obtain ⟨⟨found, last⟩, hothers, hpair⟩ := Option.bind_eq_some_iff.1 hrest
    obtain ⟨rfl, rfl⟩ := Prod.mk.inj (Option.some.inj hpair)
    have hboth : Arrives program oracle machine _ (found.reverse ++ value :: machine.stack) last :=
      (first.arrives hexact machine hcode.left hfirst).trans fun that =>
        others.arrives hexact (machine.after _ _ _ that) hcode.right hothers
    rw [Arguments.code, List.length_append, List.reverse_cons, List.append_assoc]
    exact hboth

end

/-! ## Statements -/

/-- Running statements leads to their end, with the stack as it was, or to a `return`
with the value to return above it. -/
def Finishes (program : List Command) (oracle : Oracle E) (machine : Machine E) (length : Nat)
    (ending : Ending) (memory : Memory E) : Prop :=
  ∃ reached : Machine E, machine.Reaches program oracle reached ∧ reached.memory = memory ∧
    match ending with
    | .next => reached.position = machine.position + length ∧ reached.stack = machine.stack
    | .exit value =>
      program[reached.position]? = some .ret ∧ reached.stack = value :: machine.stack

namespace Finishes

variable {machine middle : Machine E} {length count : Nat} {ending : Ending} {memory : Memory E}

/-- Code that goes straight to its end. -/
theorem of_arrives (h : Arrives program oracle machine length machine.stack memory) :
    Finishes program oracle machine length .next memory := by
  obtain ⟨that, hreach⟩ := h
  exact ⟨_, hreach, rfl, rfl, rfl⟩

/-- What is reached on the way may finish in place of the start. -/
theorem of_reaches (hreach : machine.Reaches program oracle middle)
    (hstack : middle.stack = machine.stack)
    (hend : middle.position + count = machine.position + length)
    (h : Finishes program oracle middle count ending memory) :
    Finishes program oracle machine length ending memory := by
  obtain ⟨reached, hrest, hmemory, hplace⟩ := h
  refine ⟨reached, hreach.trans hrest, hmemory, ?_⟩
  cases ending with
  | next => exact ⟨hplace.1.trans hend, hplace.2.trans hstack⟩
  | exit value => exact ⟨hplace.1, by rw [hplace.2, hstack]⟩

/-- The same behind code that arrives. -/
theorem of_arrives_trans {between : Memory E}
    (harrives : Arrives program oracle machine length machine.stack between)
    (h : ∀ inside : Machine E, inside.position = machine.position + length →
      inside.stack = machine.stack → inside.memory = between →
      Finishes program oracle inside count ending memory) :
    Finishes program oracle machine (length + count) ending memory := by
  obtain ⟨that, hreach⟩ := harrives
  refine of_reaches hreach rfl ?_ (h _ rfl rfl rfl)
  rw [← Nat.add_assoc]
  rfl

/-- Code behind statements runs only if they do not return. -/
theorem trans (h : Finishes program oracle machine length ending memory)
    (h' : ∀ inside : Machine E, inside.position = machine.position + length →
      inside.stack = machine.stack → inside.memory = memory →
      Finishes program oracle inside count .next memory) :
    Finishes program oracle machine (length + count) ending memory := by
  obtain ⟨reached, hreach, hmemory, hplace⟩ := h
  cases ending with
  | next =>
    refine of_reaches hreach hplace.2 ?_ (h' reached hplace.1 hplace.2 hmemory)
    rw [hplace.1, Nat.add_assoc]
  | exit value => exact ⟨reached, hreach, hmemory, hplace⟩

/-- Statements in a row. -/
theorem next_trans {between : Memory E}
    (h : Finishes program oracle machine length .next between)
    (h' : ∀ inside : Machine E, inside.position = machine.position + length →
      inside.memory = between → Finishes program oracle inside count ending memory) :
    Finishes program oracle machine (length + count) ending memory := by
  obtain ⟨reached, hreach, hmemory, hposition, hstack⟩ := h
  refine of_reaches hreach hstack ?_ (h' reached hposition hmemory)
  rw [hposition, Nat.add_assoc]

/-- Where statements that return end does not matter. -/
theorem exit_length {result : Word}
    (h : Finishes program oracle machine length (.exit result) memory) (count : Nat) :
    Finishes program oracle machine count (.exit result) memory := h

end Finishes

/-- The one word whose complement is zero is the word for true. -/
theorem complement_eq_zero_iff {word : Word} : ~~~word = 0 ↔ word = -1 := by
  constructor
  · intro hzero
    have htwice : ~~~(~~~word) = word := BitVec.not_not
    rw [← htwice, hzero]
    rfl
  · rintro rfl
    rfl

/-- A condition that holds leads on to the block behind it, and any other one to the
label that the jump names. -/
theorem guard_arrives (hexact : scope.Exact) {machine : Machine E} {condition : Expression}
    {first skip : String} {tail : List Command} {result : Word} {memory : Memory E} {target : Nat} (length : Nat)
    (hcode : CodeAt program machine.position
      (.label first :: (condition.code scope ++ .operation .not :: .ifGoto skip :: tail)))
    (heval : condition.eval oracle scope machine.memory = some (result, memory))
    (hlabel : Vm.labelPosition program skip = some target)
    (htarget : target = machine.position + length) :
    (result = -1 → Arrives program oracle machine (1 + (condition.code scope).length + 1 + 1)
      machine.stack memory) ∧
    (result ≠ -1 → Arrives program oracle machine length machine.stack memory) := by
  have hvalue : Arrives program oracle machine (1 + (condition.code scope).length)
      (result :: machine.stack) memory :=
    (Arrives.label hcode).trans fun that =>
      condition.arrives hexact (machine.after _ _ _ that) hcode.tail.left heval
  have hnot : CodeAt program (machine.position + (1 + (condition.code scope).length))
      (.operation .not :: .ifGoto skip :: tail) := by
    rw [← Nat.add_assoc]
    exact hcode.tail.right
  obtain ⟨that, hreach⟩ : Arrives program oracle machine (1 + (condition.code scope).length + 1)
      (~~~result :: machine.stack) memory :=
    hvalue.trans fun that => Arrives.operation hnot rfl
  -- the jump is taken on any word but zero, so on any condition but all ones
  subst htarget
  constructor
  · intro htrue
    refine ⟨that, hreach.trans (Vm.Machine.Reaches.of_execute hnot.tail ?_)⟩
    have hzero : ~~~result = 0 := complement_eq_zero_iff.2 htrue
    simp only [Vm.Machine.execute, Vm.Machine.after, hzero, if_true]
    rfl
  · intro hfalse
    refine ⟨that, hreach.trans (Vm.Machine.Reaches.of_execute hnot.tail ?_)⟩
    have hzero : ~~~result ≠ 0 := fun hzero => hfalse (complement_eq_zero_iff.1 hzero)
    simp only [Vm.Machine.execute, Vm.Machine.after, if_neg hzero, Vm.Machine.jump, hlabel]
    rfl

/-- A conditional, given how its branches finish. -/
theorem conditional_finishes (hexact : scope.Exact) (hunique : (Vm.labelNames program).Nodup)
    {machine : Machine E}
    {condition : Expression} {block otherwise : List Command} {number : Nat} {result : Word}
    {middle memory : Memory E} {ending : Ending}
    (hcode : CodeAt program machine.position
      (conditionalCode number (condition.code scope) block otherwise))
    (heval : condition.eval oracle scope machine.memory = some (result, middle))
    (htaken : result = -1 → ∀ inside : Machine E, CodeAt program inside.position block →
      inside.memory = middle → Finishes program oracle inside block.length ending memory)
    (hother : result ≠ -1 → ∀ inside : Machine E, CodeAt program inside.position otherwise →
      inside.memory = middle → Finishes program oracle inside otherwise.length ending memory) :
    Finishes program oracle machine
      (conditionalCode number (condition.code scope) block otherwise).length ending memory := by
  -- where the three labels of the conditional stand
  have hblock := hcode.tail.right.tail.tail
  have helse := hblock.right.tail
  have hend := helse.tail.right
  have hguard := guard_arrives hexact
    (1 + (condition.code scope).length + 1 + 1 + block.length + 1) hcode heval
    (Vm.labelPosition_eq hunique helse.head) (by omega)
  have hlength : (conditionalCode number (condition.code scope) block otherwise).length =
      (condition.code scope).length + block.length + otherwise.length + 6 := by
    simp only [conditionalCode, List.length_cons, List.length_append, List.length_nil]
    omega
  by_cases hresult : result = -1
  · -- through the block, over the other branch and past the last label
    have hafter : ∀ done : Machine E, done.memory = memory →
        done.position = machine.position + 1 + (condition.code scope).length + 1 + 1 +
          block.length → Finishes program oracle done (otherwise.length + 2 + 1) .next memory := by
      intro done hmemory hposition
      have hjump : Arrives program oracle done (otherwise.length + 2) done.stack done.memory :=
        .goto (hblock.right.cast hposition.symm) (Vm.labelPosition_eq hunique hend.head) (by omega)
      have hlast : Arrives program oracle done (otherwise.length + 2 + 1) done.stack done.memory :=
        hjump.trans fun that => .label (hend.cast (by simp only [Vm.Machine.after]; omega))
      rw [hmemory] at hlast
      exact .of_arrives hlast
    have hall := Finishes.of_arrives_trans (hguard.1 hresult) fun inside hposition _ hmemory =>
      (htaken hresult inside (hblock.left.cast (by omega)) hmemory).trans
        fun done hposition' _ hmemory' => hafter done hmemory' (by omega)
    have hsum : 1 + (condition.code scope).length + 1 + 1 +
        (block.length + (otherwise.length + 2 + 1)) =
          (condition.code scope).length + block.length + otherwise.length + 6 := by omega
    rwa [hlength, ← hsum]
  · -- past the label of the other branch, through it and past the last label
    have hlabel : Arrives program oracle machine
        (1 + (condition.code scope).length + 1 + 1 + block.length + 1 + 1) machine.stack middle :=
      (hguard.2 hresult).trans fun that =>
        .label (helse.cast (by simp only [Vm.Machine.after]; omega))
    have hafter : ∀ done : Machine E, done.memory = memory →
        done.position = machine.position + 1 + (condition.code scope).length + 1 + 1 +
          block.length + 1 + 1 + otherwise.length →
        Finishes program oracle done 1 .next memory := by
      intro done hmemory hposition
      have hlast : Arrives program oracle done 1 done.stack done.memory :=
        .label (hend.cast hposition.symm)
      rw [hmemory] at hlast
      exact .of_arrives hlast
    have hall := Finishes.of_arrives_trans hlabel fun inside hposition _ hmemory =>
      (hother hresult inside (helse.tail.left.cast (by omega)) hmemory).trans
        fun done hposition' _ hmemory' => hafter done hmemory' (by omega)
    have hsum : 1 + (condition.code scope).length + 1 + 1 + block.length + 1 + 1 +
        (otherwise.length + 1) =
          (condition.code scope).length + block.length + otherwise.length + 6 := by omega
    rwa [hlength, ← hsum]

/-! ### Loops -/

section Loop

variable {machine : Machine E} {condition : Expression} {body : List Command} {number : Nat}
  {middle memory : Memory E}

/-- A loop is its condition, its body and five commands of its own. -/
theorem length_loopCode (number : Nat) (condition body : List Command) :
    (loopCode number condition body).length = condition.length + body.length + 5 := by
  simp only [loopCode, List.length_cons, List.length_append, List.length_nil]
  omega

/-- What the condition of a loop leads to. -/
theorem loop_guard (hexact : scope.Exact) (hunique : (Vm.labelNames program).Nodup) {result : Word}
    (hcode : CodeAt program machine.position
      (loopCode number (condition.code scope) body))
    (heval : condition.eval oracle scope machine.memory = some (result, middle)) :
    (result = -1 → Arrives program oracle machine (1 + (condition.code scope).length + 1 + 1)
      machine.stack middle) ∧
    (result ≠ -1 → Arrives program oracle machine
      (1 + (condition.code scope).length + 1 + 1 + body.length + 1) machine.stack middle) :=
  guard_arrives hexact _ hcode heval
    (Vm.labelPosition_eq hunique hcode.tail.right.tail.tail.right.tail.head) (by omega)

/-- A loop whose condition does not hold is over. -/
theorem loop_done (hexact : scope.Exact) (hunique : (Vm.labelNames program).Nodup) {result : Word}
    (hcode : CodeAt program machine.position
      (loopCode number (condition.code scope) body))
    (heval : condition.eval oracle scope machine.memory = some (result, middle))
    (hresult : result ≠ -1) :
    Finishes program oracle machine (loopCode number (condition.code scope) body).length .next
      middle := by
  have hend := hcode.tail.right.tail.tail.right.tail
  have hlast : Arrives program oracle machine
      (1 + (condition.code scope).length + 1 + 1 + body.length + 1 + 1) machine.stack middle :=
    ((loop_guard hexact hunique hcode heval).2 hresult).trans fun that =>
      .label (hend.cast (by simp only [Vm.Machine.after]; omega))
  have hsum : 1 + (condition.code scope).length + 1 + 1 + body.length + 1 + 1 =
      (condition.code scope).length + body.length + 5 := by omega
  rw [length_loopCode, ← hsum]
  exact .of_arrives hlast

/-- A loop whose condition holds runs its body. -/
theorem loop_body (hexact : scope.Exact) (hunique : (Vm.labelNames program).Nodup) {ending : Ending}
    (hcode : CodeAt program machine.position
      (loopCode number (condition.code scope) body))
    (heval : condition.eval oracle scope machine.memory = some (-1, middle))
    (hbody : ∀ inside : Machine E, CodeAt program inside.position body →
      inside.memory = middle → Finishes program oracle inside body.length ending memory) :
    Finishes program oracle machine (1 + (condition.code scope).length + 1 + 1 + body.length)
      ending memory :=
  .of_arrives_trans ((loop_guard hexact hunique hcode heval).1 rfl)
    fun inside hposition _ hmemory => hbody inside (hcode.tail.right.tail.tail.left.cast (by omega)) hmemory

/-- Behind its body a loop begins again. -/
theorem loop_again (hunique : (Vm.labelNames program).Nodup) {ending : Ending} {again : Memory E}
    (hcode : CodeAt program machine.position
      (loopCode number (condition.code scope) body))
    (hround : Finishes program oracle machine
      (1 + (condition.code scope).length + 1 + 1 + body.length) .next again)
    (hloop : ∀ back : Machine E, back.position = machine.position → back.memory = again →
      Finishes program oracle back (loopCode number (condition.code scope) body).length ending
        memory) :
    Finishes program oracle machine (loopCode number (condition.code scope) body).length ending
      memory := by
  obtain ⟨reached, hreach, hmemory, hposition, hstack⟩ := hround
  have hgoto : CodeAt program reached.position _ :=
    hcode.tail.right.tail.tail.right.cast (by omega)
  have hjump : reached.execute program oracle (.goto (LabelTag.whileStart.name number)) =
      some { reached with position := machine.position } := by
    rw [Vm.Machine.execute, Vm.Machine.jump, Vm.labelPosition_eq hunique hcode.head]
    rfl
  exact .of_reaches (hreach.trans (Vm.Machine.Reaches.of_execute hgoto hjump)) hstack rfl
    (hloop _ rfl hmemory)

end Loop

/-! ### Assignments -/

/-- Popping into the variable of a name. -/
theorem popName_arrives (hexact : scope.Exact) {machine : Machine E} {name : String}
    {symbol : Symbol} {value : Word} {rest : List Word}
    (hresolve : scope.resolve? name = some symbol)
    (hcode : CodeAt program machine.position (scope.popName name))
    (hstack : machine.stack = value :: rest) :
    Arrives program oracle machine (scope.popName name).length rest
      (machine.memory.assign (scope.cell symbol) value) := by
  have hpop : scope.popName name = [popOf symbol] := by
    rw [Scope.popName, hresolve]
    rfl
  rw [hpop] at hcode ⊢
  refine .of_execute machine.that hcode ?_
  rw [popOf, Vm.Machine.execute, hstack, Vm.Memory.assign, Scope.cell,
    hexact name symbol hresolve]
  cases symbol.kind <;>
    simp [VarKind.segment, Vm.Machine.write, Vm.Machine.next, Vm.Machine.after,
      Vm.Machine.setStatic, Vm.Machine.setHeap, Vm.Memory.setHeap]

/-- Popping the top of the stack into `temp 0`. -/
theorem park_reaches {machine : Machine E} {value : Word} {rest : List Word} {code : List Command}
    (hcode : CodeAt program machine.position (.pop .temp 0 :: code))
    (hstack : machine.stack = value :: rest) :
    machine.Reaches program oracle (machine.park value rest) :=
  Vm.Machine.Reaches.of_execute hcode (Vm.Machine.execute_popTemp hstack)

/-- The end of an assignment to an array element: the address is on the stack and the
value in `temp 0`. -/
theorem store_reaches {machine : Machine E} {address value : Word} {rest : List Word}
    {code : List Command}
    (hcode : CodeAt program machine.position
      (.pop .pointer 1 :: .push .temp 0 :: .pop .that 0 :: code))
    (hstack : machine.stack = address :: rest) (htemp : machine.temp 0 = value) :
    machine.Reaches program oracle
      (machine.after 3 rest (machine.memory.setHeap address value) address) := by
  subst htemp
  refine (Vm.Machine.Reaches.of_execute hcode (Vm.Machine.execute_popPointer hstack)).trans ?_
  refine (Vm.Machine.Reaches.of_execute hcode.tail (Vm.Machine.execute_pushTemp _)).trans ?_
  exact Vm.Machine.Reaches.of_execute hcode.tail.tail (Vm.Machine.execute_popThat rfl)

/-- `let target[index] = value;` The index is computed with the value in `temp 0`, and
no command of an expression writes there. -/
theorem store_finishes (hexact : scope.Exact) {machine : Machine E} {target : String}
    {index value : Expression}
    {symbol : Symbol} {result offset : Word} {middle after : Memory E} {number : Nat}
    (hcode : CodeAt program machine.position
      ((Statement.store target index value).code scope number))
    (hvalue : value.eval oracle scope machine.memory = some (result, middle))
    (htarget : scope.resolve? target = some symbol)
    (hindex : index.eval oracle scope middle = some (offset, after)) :
    Finishes program oracle machine
      ((Statement.store target index value).code scope number).length .next
      (after.setHeap (middle.fetch (scope.cell symbol) + offset) result) := by
  rw [Statement.code, storeCode] at hcode ⊢
  obtain ⟨that, hevaluated⟩ := value.arrives hexact machine hcode.left hvalue
  let evaluated := machine.after (value.code scope).length (result :: machine.stack) middle that
  let parked := evaluated.park result machine.stack
  have hparked : machine.Reaches program oracle parked :=
    hevaluated.trans (park_reaches hcode.right rfl)
  have hcodeParked : CodeAt program parked.position _ := hcode.right.tail
  -- the base and the index are computed with the value in `temp 0`
  have hbase : Arrives program oracle parked (scope.pushName target).length
      (middle.fetch (scope.cell symbol) :: machine.stack) middle :=
    pushName_arrives hexact htarget hcodeParked.left.left
  have hboth : Arrives program oracle parked _
      (offset :: middle.fetch (scope.cell symbol) :: machine.stack) after :=
    hbase.trans fun that =>
      index.arrives hexact (parked.after _ _ _ that) hcodeParked.left.right hindex
  rw [← List.length_append] at hboth
  obtain ⟨that', hadded⟩ := hboth.trans fun that => Arrives.operation hcodeParked.right rfl
  have htemp : parked.temp 0 = result := by simp [parked, Vm.Machine.park]
  have hend := hadded.trans (store_reaches hcodeParked.right.tail rfl htemp)
  refine ⟨_, hparked.trans hend, rfl, ?_, rfl⟩
  simp only [parked, evaluated, Vm.Machine.after, Vm.Machine.park, List.length_append,
    List.length_cons, List.length_nil]
  omega

/-! ### Statements and blocks -/

mutual

theorem Statement.Runs.finishes {tree : Statement} {memory after : Memory E} {ending : Ending}
    (hruns : Statement.Runs oracle scope tree memory ending after)
    (hexact : scope.Exact) (hunique : (Vm.labelNames program).Nodup) (machine : Machine E)
    (number : Nat)
    (hcode : CodeAt program machine.position (tree.code scope number))
    (hmemory : machine.memory = memory) :
    Finishes program oracle machine (tree.code scope number).length ending after := by
  match hruns with
  | .assign hvalue htarget =>
    subst hmemory
    rw [Statement.code, List.length_append]
    exact .of_arrives ((Expression.arrives _ hexact machine hcode.left hvalue).trans fun that =>
      popName_arrives hexact htarget hcode.right rfl)
  | .store hvalue htarget hindex =>
    subst hmemory
    exact store_finishes hexact hcode hvalue htarget hindex
  | .thenTaken hcondition hblock =>
    subst hmemory
    exact conditional_finishes hexact hunique hcode hcondition
      (fun _ inside hinside hmemory =>
        hblock.finishes hexact hunique inside (number + 1) hinside hmemory)
      (fun hfalse => absurd rfl hfalse)
  | .thenSkipped hcondition hresult =>
    subst hmemory
    refine conditional_finishes hexact hunique hcode hcondition
      (fun htrue => absurd htrue hresult) ?_
    rintro - inside - rfl
    exact .of_arrives (.refl inside)
  | .firstTaken hcondition hblock =>
    subst hmemory
    exact conditional_finishes hexact hunique hcode hcondition
      (fun _ inside hinside hmemory =>
        hblock.finishes hexact hunique inside (number + 1) hinside hmemory)
      (fun hfalse => absurd rfl hfalse)
  | .otherTaken hcondition hresult hblock =>
    subst hmemory
    exact conditional_finishes hexact hunique hcode hcondition (fun htrue => absurd htrue hresult)
      (fun _ inside hinside hmemory => hblock.finishes hexact hunique inside _ hinside hmemory)
  | .loopDone hcondition hresult =>
    subst hmemory
    exact loop_done hexact hunique hcode hcondition hresult
  | .loopRound hcondition hbody hloop =>
    subst hmemory
    -- the rest of the loop is a run of its own, and the derivation of it is smaller
    have hround := loop_body hexact hunique hcode hcondition fun inside hinside hmemory =>
      hbody.finishes hexact hunique inside (number + 1) hinside hmemory
    exact loop_again hunique hcode hround fun back hposition hmemory =>
      hloop.finishes hexact hunique back number (hcode.cast hposition.symm) hmemory
  | .loopExit hcondition hbody =>
    subst hmemory
    have hround := loop_body hexact hunique hcode hcondition fun inside hinside hmemory =>
      hbody.finishes hexact hunique inside (number + 1) hinside hmemory
    exact hround.exit_length _
  | .invoke hcall =>
    subst hmemory
    obtain ⟨that, hcalled⟩ := Call.arrives _ hexact machine hcode.left hcall
    refine ⟨_, hcalled.trans (park_reaches hcode.right rfl), rfl, ?_, rfl⟩
    rw [Statement.code, List.length_append]
    rfl
  | .exitNone =>
    subst hmemory
    have hpush : Arrives program oracle machine 1 _ _ := .push hcode
    obtain ⟨that, hreach⟩ := hpush
    exact ⟨_, hreach, rfl, hcode.tail.head, rfl⟩
  | .exitSome hvalue =>
    subst hmemory
    obtain ⟨that, hreach⟩ := Expression.arrives _ hexact machine hcode.left hvalue
    exact ⟨_, hreach, rfl, hcode.right.head, rfl⟩

theorem Block.Runs.finishes {tree : Block} {memory after : Memory E} {ending : Ending}
    (hruns : Block.Runs oracle scope tree memory ending after)
    (hexact : scope.Exact) (hunique : (Vm.labelNames program).Nodup) (machine : Machine E)
    (number : Nat)
    (hcode : CodeAt program machine.position (tree.code scope number))
    (hmemory : machine.memory = memory) :
    Finishes program oracle machine (tree.code scope number).length ending after := by
  match hruns with
  | .nil =>
    subst hmemory
    exact .of_arrives (.refl machine)
  | .next hfirst hrest =>
    rw [Block.code, List.length_append]
    exact (hfirst.finishes hexact hunique machine number hcode.left hmemory).next_trans
      fun inside hposition hinside =>
        hrest.finishes hexact hunique inside _ (hcode.right.cast hposition.symm) hinside
  | .exit hfirst =>
    exact (hfirst.finishes hexact hunique machine number hcode.left hmemory).exit_length _

end

end Syntax

end Jack
