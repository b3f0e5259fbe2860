/-
The stack machine that the commands are for.

Words have sixteen bits. A subroutine that runs has a stack of its own, its locals
and arguments, the address of its object in `pointer 0` and an address of its own
choice in `pointer 1`. Statics and the heap belong to the world, which all
subroutines share.

What a call does is left open: an `Oracle` gets the name of the callee, the values
that are passed and the world, and answers with a value and a new world, or not at
all. It sees nothing of the caller but the values. `World.outside` is whatever
else the answer may depend on, so that an oracle can be as fickle as it likes and
is a function all the same.

Code is a list of commands, and a machine stands at a position in it. `CodeAt`
says that a piece of code stands at a position; with unique labels, a jump to a
label of the piece goes to its place in the piece (`labelPosition_eq`).
-/
import Mathlib.Data.List.Nodup
import Mathlib.Logic.Function.Basic
import Mathlib.Logic.Relation
import Jack.Vm.Command

set_option autoImplicit false

namespace Jack.Vm

/-! ## Memory -/

/-- The words of the machine. -/
abbrev Word := BitVec 16

/-- What a comparison gives: all bits for true, none for false. -/
def truth (holds : Bool) : Word := if holds then -1 else 0

/-- What all subroutines share. -/
structure World (E : Type) where
  statics : Nat → Word
  heap : Word → Word
  /-- Whatever else decides about calls. -/
  outside : E

/-- What a subroutine can name. -/
structure Memory (E : Type) where
  locals : Nat → Word
  arguments : Nat → Word
  /-- The address of the object, in `pointer 0`. -/
  this : Word
  world : World E

/-- What calls do: the name of the callee and the values passed to it, first one
first, with the world before and behind the call. -/
abbrev Oracle (E : Type) := String → List Word → World E → Option (Word × World E)

/-! ## Machines -/

/-- A subroutine that runs. -/
structure Machine (E : Type) where
  position : Nat
  /-- The values on the stack, top first. -/
  stack : List Word
  memory : Memory E
  /-- The address in `pointer 1`. -/
  that : Word
  temp : Nat → Word

namespace Machine

variable {E : Type}

/-- The word at a place of a segment. -/
def read (machine : Machine E) : Segment → Int → Word
  | .constant, index => BitVec.ofInt 16 index
  | .argument, index => machine.memory.arguments index.toNat
  | .localVar, index => machine.memory.locals index.toNat
  | .static, index => machine.memory.world.statics index.toNat
  | .this, index => machine.memory.world.heap (machine.memory.this + BitVec.ofInt 16 index)
  | .that, index => machine.memory.world.heap (machine.that + BitVec.ofInt 16 index)
  | .pointer, index => if index = 0 then machine.memory.this else machine.that
  | .temp, index => machine.temp index.toNat

/-- A word put into the statics. -/
def setStatic (machine : Machine E) (index : Nat) (value : Word) : Machine E :=
  { machine with
    memory.world.statics := Function.update machine.memory.world.statics index value }

/-- A word put into the heap. -/
def setHeap (machine : Machine E) (address value : Word) : Machine E :=
  { machine with
    memory.world.heap := Function.update machine.memory.world.heap address value }

/-- A word put into a place of a segment. Constants have no place. -/
def write (machine : Machine E) : Segment → Int → Word → Option (Machine E)
  | .constant, _, _ => none
  | .argument, index, value =>
    some { machine with
      memory.arguments := Function.update machine.memory.arguments index.toNat value }
  | .localVar, index, value =>
    some { machine with
      memory.locals := Function.update machine.memory.locals index.toNat value }
  | .static, index, value => some (machine.setStatic index.toNat value)
  | .this, index, value =>
    some (machine.setHeap (machine.memory.this + BitVec.ofInt 16 index) value)
  | .that, index, value => some (machine.setHeap (machine.that + BitVec.ofInt 16 index) value)
  | .pointer, index, value =>
    if index = 0 then some { machine with memory.this := value }
    else some { machine with that := value }
  | .temp, index, value =>
    some { machine with temp := Function.update machine.temp index.toNat value }

end Machine

/-- An operation on the top of a stack. The second operand is above the first. -/
def Operation.apply : Operation → List Word → Option (List Word)
  | .add, second :: first :: rest => some ((first + second) :: rest)
  | .sub, second :: first :: rest => some ((first - second) :: rest)
  | .neg, operand :: rest => some ((-operand) :: rest)
  | .eq, second :: first :: rest => some (truth (first == second) :: rest)
  | .gt, second :: first :: rest => some (truth (second.slt first) :: rest)
  | .lt, second :: first :: rest => some (truth (first.slt second) :: rest)
  | .and, second :: first :: rest => some ((first &&& second) :: rest)
  | .or, second :: first :: rest => some ((first ||| second) :: rest)
  | .not, operand :: rest => some ((~~~operand) :: rest)
  | _, _ => none

/-- The position of a label. -/
def labelPosition (program : List Command) (name : String) : Option Nat :=
  program.idxOf? (.label name)

namespace Machine

variable {E : Type}

/-- A machine in front of the next command, with another stack. -/
def next (machine : Machine E) (stack : List Word) : Machine E :=
  { machine with position := machine.position + 1, stack }

/-- A machine at a label, with another stack. -/
def jump (machine : Machine E) (program : List Command) (name : String) (stack : List Word) :
    Option (Machine E) :=
  (labelPosition program name).map fun position => { machine with position, stack }

/-- What a command does. A subroutine ends at a `return`, and it is not entered by
running into it, so both commands about frames stop the machine. -/
def execute (program : List Command) (oracle : Oracle E) (machine : Machine E) :
    Command → Option (Machine E)
  | .push segment index => some (machine.next (machine.read segment index :: machine.stack))
  | .pop segment index =>
    match machine.stack with
    | value :: rest => (machine.next rest).write segment index value
    | [] => none
  | .operation operation => (operation.apply machine.stack).map machine.next
  | .label _ => some (machine.next machine.stack)
  | .goto name => machine.jump program name machine.stack
  | .ifGoto name =>
    match machine.stack with
    | value :: rest =>
      if value = 0 then some (machine.next rest) else machine.jump program name rest
    | [] => none
  | .call callee count =>
    if count ≤ machine.stack.length then
      (oracle callee (machine.stack.take count).reverse machine.memory.world).map fun answer =>
        { machine.next (answer.1 :: machine.stack.drop count) with memory.world := answer.2 }
    else none
  | .function _ _ => none
  | .ret => none

/-- One step of a machine: the command that it stands before. -/
def step (program : List Command) (oracle : Oracle E) (machine : Machine E) : Option (Machine E) :=
  (program[machine.position]?).bind (machine.execute program oracle)

/-- Some number of steps leads from one machine to another. -/
def Reaches (program : List Command) (oracle : Oracle E) : Machine E → Machine E → Prop :=
  Relation.ReflTransGen fun machine reached => machine.step program oracle = some reached

end Machine

/-! ## Code at a position -/

/-- A piece of code stands at a position of a program. -/
def CodeAt (program : List Command) (position : Nat) (code : List Command) : Prop :=
  ∃ rest, program.drop position = code ++ rest

namespace CodeAt

variable {program code first second : List Command} {position : Nat} {command : Command}

/-- The first command of a piece. -/
theorem head (h : CodeAt program position (command :: code)) :
    program[position]? = some command := by
  obtain ⟨rest, hdrop⟩ := h
  have hhead : (program.drop position)[0]? = some command := by
    rw [hdrop]
    rfl
  rwa [List.getElem?_drop, Nat.add_zero] at hhead

theorem left (h : CodeAt program position (first ++ second)) : CodeAt program position first := by
  obtain ⟨rest, hdrop⟩ := h
  exact ⟨second ++ rest, by rw [hdrop, List.append_assoc]⟩

theorem right (h : CodeAt program position (first ++ second)) :
    CodeAt program (position + first.length) second := by
  obtain ⟨rest, hdrop⟩ := h
  have hbehind : (program.drop position).drop first.length = second ++ rest := by
    rw [hdrop, List.append_assoc, List.drop_left]
  exact ⟨rest, by rwa [List.drop_drop] at hbehind⟩

/-- What comes behind the first command of a piece. -/
theorem tail (h : CodeAt program position (command :: code)) :
    CodeAt program (position + 1) code := by
  rw [← List.singleton_append] at h
  exact h.right

/-- The command at a place inside a piece. -/
theorem getElem? (h : CodeAt program position code) {place : Nat} (hplace : place < code.length) :
    program[position + place]? = code[place]? := by
  obtain ⟨rest, hdrop⟩ := h
  rw [← List.getElem?_drop, hdrop, List.getElem?_append_left hplace]

/-- The same position, written differently. -/
theorem cast {place : Nat} (h : CodeAt program position code) (heq : position = place) :
    CodeAt program place code := heq ▸ h

/-- A piece between two others. -/
theorem of_append (before code after : List Command) :
    CodeAt (before ++ (code ++ after)) before.length code :=
  ⟨after, List.drop_left⟩

end CodeAt

/-- The name that a command gives to its place. -/
def Command.labelName? : Command → Option String
  | .label name => some name
  | _ => none

/-- The names of the labels in a piece of code. -/
def labelNames (code : List Command) : List String := code.filterMap Command.labelName?

@[simp] theorem labelNames_nil : labelNames [] = [] := rfl

@[simp] theorem labelNames_cons (command : Command) (code : List Command) :
    labelNames (command :: code) = command.labelName?.toList ++ labelNames code := by
  unfold labelNames
  cases h : command.labelName? <;> simp [h]

@[simp] theorem labelNames_append (first second : List Command) :
    labelNames (first ++ second) = labelNames first ++ labelNames second :=
  List.filterMap_append

theorem mem_labelNames {code : List Command} {name : String} :
    name ∈ labelNames code ↔ .label name ∈ code := by
  rw [labelNames, List.mem_filterMap]
  constructor
  · rintro ⟨command, hmem, hname⟩
    cases command with
    | label found =>
      cases hname
      exact hmem
    | _ => cases hname
  · intro hmem
    exact ⟨.label name, hmem, rfl⟩

/-- The commands that expressions are made of. They go on to the next command, and write
no memory of the subroutine but `pointer 1`. -/
def Command.evaluates : Command → Bool
  | .push _ _ => true
  | .pop segment index => segment = .pointer ∧ index = 1
  | .operation _ => true
  | .call _ _ => true
  | _ => false

theorem labelNames_of_evaluates {code : List Command} (h : code.all Command.evaluates) :
    labelNames code = [] := by
  rw [List.all_eq_true] at h
  apply List.filterMap_eq_nil_iff.2
  intro command hmem
  have hevaluates := h command hmem
  cases command <;> first | rfl | cases hevaluates

/-- A label with a unique name is found where it stands. -/
theorem labelPosition_eq {program : List Command} (hunique : (labelNames program).Nodup)
    {name : String} {position : Nat} (hlabel : program[position]? = some (.label name)) :
    labelPosition program name = some position := by
  induction program generalizing position with
  | nil => cases hlabel
  | cons command rest ih =>
    cases position with
    | zero =>
      cases hlabel
      simp [labelPosition, List.idxOf?, List.findIdx?_cons]
    | succ place =>
      have hrest : (labelNames rest).Nodup := by
        cases command with
        | label found => exact (List.nodup_cons.1 hunique).2
        | _ => exact hunique
      have hfound := ih hrest hlabel
      -- an earlier label of this name would be the second one
      have hne : command ≠ .label name := by
        rintro rfl
        refine (List.nodup_cons.1 hunique).1 (mem_labelNames.2 ?_)
        exact List.mem_of_getElem? hlabel
      rw [labelPosition, List.idxOf?] at hfound ⊢
      rw [List.findIdx?_cons, hfound]
      simp [hne]

namespace Machine

variable {E : Type} {program : List Command} {oracle : Oracle E}
  {machine middle reached : Machine E}

theorem Reaches.refl (machine : Machine E) : Reaches program oracle machine machine :=
  Relation.ReflTransGen.refl

theorem Reaches.trans (h : Reaches program oracle machine middle)
    (h' : Reaches program oracle middle reached) : Reaches program oracle machine reached :=
  Relation.ReflTransGen.trans h h'

/-- One step, from the command that stands at the machine's position. -/
theorem Reaches.of_execute {command : Command} {code : List Command}
    (hcode : CodeAt program machine.position (command :: code))
    (hexecute : machine.execute program oracle command = some reached) :
    Reaches program oracle machine reached := by
  refine .single ?_
  rw [step, hcode.head]
  exact hexecute

end Machine

end Jack.Vm
