/-
Whole classes that run.

A `Machine` runs one subroutine and leaves calls to an oracle. A `Process` runs the
subroutines of its program: a call of one of them saves the stack, the locals, the
arguments and both pointers of the caller, and a `return` brings them back. The callee
starts with an empty stack, so it cannot reach the values of its callers. Statics, the
heap and `temp` are not saved: all subroutines share them. Calls of what the program
does not define still go to the oracle.

A run records the processes that it visits. Two facts about runs are what the rest
rests on. Straight code is passed: a run that comes out behind it in the same
activation stands at its end at some time, with the stack that `depthBehind` says,
and until then it visits commands of the code and deeper activations (`Run.passes`).
And `temp 0` holds the last word that was popped into it (`Run.temp_eq`).
-/
import Jack.Proofs.StackDepth

set_option autoImplicit false

namespace Jack.Vm

/-! ## Processes -/

/-- What a call saves of the caller. -/
structure Caller where
  /-- Where the caller goes on. -/
  position : Nat
  stack : List Word
  locals : Nat → Word
  arguments : Nat → Word
  this : Word
  that : Word

/-- The subroutine that runs, and those that wait, the innermost first. -/
structure Process (E : Type) where
  machine : Machine E
  callers : List Caller

/-- The name of the subroutine that a command begins. -/
def Command.functionName? : Command → Option String
  | .function name _ => some name
  | _ => none

/-- Where the commands of a subroutine begin, behind its `function` command. -/
def entryPosition (program : List Command) (callee : String) : Option Nat :=
  (program.findIdx? fun command => command.functionName? == some callee).map (· + 1)

namespace Process

variable {E : Type}

/-- What is saved of a machine that calls with a number of values. -/
def saved (machine : Machine E) (count : Nat) : Caller where
  position := machine.position + 1
  stack := machine.stack.drop count
  locals := machine.memory.locals
  arguments := machine.memory.arguments
  this := machine.memory.this
  that := machine.that

/-- The call of a subroutine of the program. The pointers are as in the caller until the
subroutine sets them. -/
def enter (process : Process E) (entry count : Nat) : Process E where
  machine :=
    { process.machine with
      position := entry
      stack := []
      memory.locals := fun _ => 0
      memory.arguments := fun index => (process.machine.stack.take count).reverse.getD index 0 }
  callers := saved process.machine count :: process.callers

/-- A caller that goes on with the value that a machine returns. -/
def resumed (caller : Caller) (machine : Machine E) (value : Word) : Machine E where
  position := caller.position
  stack := value :: caller.stack
  memory :=
    { locals := caller.locals
      arguments := caller.arguments
      this := caller.this
      world := machine.memory.world }
  that := caller.that
  temp := machine.temp

/-- The next state of the subroutine that runs. -/
def inside (process : Process E) (machine : Machine E) : Process E := { process with machine }

/-- What a command does. Running into a subroutine from above makes room for its locals
on the stack and goes on. -/
def execute (program : List Command) (oracle : Oracle E) (process : Process E) :
    Command → Option (Process E)
  | .call callee count =>
    match entryPosition program callee with
    | some entry =>
      if count ≤ process.machine.stack.length then some (process.enter entry count) else none
    | none => (process.machine.execute program oracle (.call callee count)).map process.inside
  | .ret =>
    match process.machine.stack, process.callers with
    | value :: _, caller :: callers =>
      some { machine := resumed caller process.machine value, callers }
    | _, _ => none
  | .function _ count =>
    some (process.inside
      (process.machine.next (List.replicate count 0 ++ process.machine.stack)))
  | command => (process.machine.execute program oracle command).map process.inside

/-- One step of a process. -/
def step (program : List Command) (oracle : Oracle E) (process : Process E) :
    Option (Process E) :=
  (program[process.machine.position]?).bind (process.execute program oracle)

/-- What a step can do: go on inside the subroutine, enter one or return from it. -/
theorem step_cases {program : List Command} {oracle : Oracle E} {process reached : Process E}
    (hstep : process.step program oracle = some reached) :
    ∃ command, program[process.machine.position]? = some command ∧
      ((∃ machine, process.machine.execute program oracle command = some machine ∧
          reached = process.inside machine) ∨
        (∃ name count, command = .function name count ∧ reached = process.inside
          (process.machine.next (List.replicate count 0 ++ process.machine.stack))) ∨
        (∃ callee count entry, command = .call callee count ∧
          count ≤ process.machine.stack.length ∧ reached = process.enter entry count) ∨
        (∃ value rest caller callers, command = .ret ∧ process.machine.stack = value :: rest ∧
          process.callers = caller :: callers ∧
          reached = { machine := resumed caller process.machine value, callers })) := by
  unfold step at hstep
  obtain ⟨command, hcommand, hexecute⟩ := Option.bind_eq_some_iff.1 hstep
  refine ⟨command, hcommand, ?_⟩
  -- calls, returns and `function` are about frames, and all else happens inside the machine
  cases command with
  | call callee count =>
    simp only [execute] at hexecute
    split at hexecute
    · split at hexecute
      · rename_i entry hentry hcount
        exact .inr (.inr (.inl ⟨callee, count, entry, rfl, hcount,
          (Option.some.inj hexecute).symm⟩))
      · cases hexecute
    · obtain ⟨machine, hmachine, hreached⟩ := Option.map_eq_some_iff.1 hexecute
      exact .inl ⟨machine, hmachine, hreached.symm⟩
  | ret =>
    simp only [execute] at hexecute
    split at hexecute
    · rename_i value rest caller callers hstack hcallers
      exact .inr (.inr (.inr ⟨value, rest, caller, callers, rfl, hstack, hcallers,
        (Option.some.inj hexecute).symm⟩))
    · cases hexecute
  | function name count =>
    exact .inr (.inl ⟨name, count, rfl, (Option.some.inj hexecute).symm⟩)
  | _ =>
    simp only [execute] at hexecute
    obtain ⟨machine, hmachine, hreached⟩ := Option.map_eq_some_iff.1 hexecute
    exact .inl ⟨machine, hmachine, hreached.symm⟩

end Process

/-! ## What commands do to the stack and to `temp` -/

namespace Machine

variable {E : Type} {program : List Command} {oracle : Oracle E} {machine reached : Machine E}

/-- Writing moves nothing and leaves the stack alone, and `temp` as well if it writes
elsewhere. -/
theorem write_frame {segment : Segment} {index : Int} {value : Word}
    (hwrite : machine.write segment index value = some reached) :
    reached.position = machine.position ∧ reached.stack = machine.stack ∧
      (segment ≠ .temp → reached.temp = machine.temp) := by
  cases segment with
  | constant => cases hwrite
  | pointer =>
    simp only [write] at hwrite
    split at hwrite <;> cases hwrite <;> exact ⟨rfl, rfl, fun _ => rfl⟩
  | temp =>
    cases hwrite
    exact ⟨rfl, rfl, fun hne => absurd rfl hne⟩
  | _ =>
    cases hwrite
    exact ⟨rfl, rfl, fun _ => rfl⟩

/-- An operation replaces its operands by a value. -/
theorem apply_effect {op : Operation} {stack found : List Word}
    (happly : op.apply stack = some found) :
    op.operands ≤ stack.length ∧ ∃ value, found = value :: stack.drop op.operands := by
  unfold Operation.apply at happly
  split at happly <;> cases happly <;>
    exact ⟨by simp [Operation.operands], _, rfl⟩

/-- A command with an effect goes on to the next one, with the stack that the effect
says. -/
theorem execute_effect {command : Command} {taken given : Nat}
    (heffect : command.effect? = some (taken, given))
    (hexecute : machine.execute program oracle command = some reached) :
    reached.position = machine.position + 1 ∧ taken ≤ machine.stack.length ∧
      ∃ values : List Word, values.length = given ∧
        reached.stack = values ++ machine.stack.drop taken := by
  cases command with
  | push segment index =>
    cases heffect
    cases hexecute
    exact ⟨rfl, Nat.zero_le _, [_], rfl, rfl⟩
  | pop segment index =>
    cases heffect
    simp only [execute] at hexecute
    split at hexecute
    · rename_i value rest hstack
      obtain ⟨hposition, hrest, -⟩ := write_frame hexecute
      rw [hstack]
      exact ⟨hposition, by simp, [], rfl, hrest⟩
    · cases hexecute
  -- an operation finds its operands or does not execute
  | operation op =>
    cases heffect
    obtain ⟨found, happly, hreached⟩ := Option.map_eq_some_iff.1 hexecute
    obtain ⟨henough, value, rfl⟩ := apply_effect happly
    subst hreached
    exact ⟨rfl, henough, [value], rfl, rfl⟩
  | label name =>
    cases heffect
    cases hexecute
    exact ⟨rfl, Nat.zero_le _, [], rfl, rfl⟩
  | call callee count =>
    cases heffect
    simp only [execute] at hexecute
    split at hexecute
    · rename_i henough
      obtain ⟨answer, -, hreached⟩ := Option.map_eq_some_iff.1 hexecute
      subst hreached
      exact ⟨rfl, henough, [answer.1], rfl, rfl⟩
    · cases hexecute
  | _ => cases heffect

/-- The word that a command is about to pop into `temp 0`. -/
def parks (machine : Machine E) : Command → Option Word
  | .pop .temp index => if index.toNat = 0 then machine.stack.head? else none
  | _ => none

theorem temp_jump {name : String} {stack : List Word}
    (hjump : machine.jump program name stack = some reached) : reached.temp = machine.temp := by
  unfold jump at hjump
  obtain ⟨position, -, rfl⟩ := Option.map_eq_some_iff.1 hjump
  rfl

/-- Only what is popped into `temp 0` changes it. -/
theorem temp_execute {command : Command}
    (hexecute : machine.execute program oracle command = some reached) :
    reached.temp 0 = (machine.parks command).getD (machine.temp 0) := by
  cases command with
  | pop segment index =>
    simp only [execute] at hexecute
    split at hexecute
    · rename_i value rest hstack
      -- only a pop can write `temp`, and only into its own place
      by_cases hsegment : segment = .temp
      · subst hsegment
        cases hexecute
        by_cases hindex : index.toNat = 0
        · simp [parks, hindex, hstack]
        · simp [parks, hindex, Function.update_of_ne (Ne.symm hindex), next]
      · have hparks : machine.parks (.pop segment index) = none := by
          cases segment <;> first | rfl | exact absurd rfl hsegment
        rw [(write_frame hexecute).2.2 hsegment, hparks]
        rfl
    · cases hexecute
  | goto name =>
    rw [temp_jump hexecute]
    rfl
  | ifGoto name =>
    simp only [execute] at hexecute
    split at hexecute
    · split at hexecute
      · cases hexecute
        rfl
      · rw [temp_jump hexecute]
        rfl
    · cases hexecute
  | operation op =>
    obtain ⟨found, -, rfl⟩ := Option.map_eq_some_iff.1 hexecute
    rfl
  | call callee count =>
    simp only [execute] at hexecute
    split at hexecute
    · obtain ⟨answer, -, rfl⟩ := Option.map_eq_some_iff.1 hexecute
      rfl
    · cases hexecute
  | push segment index =>
    cases hexecute
    rfl
  | label name =>
    cases hexecute
    rfl
  | function name count => cases hexecute
  | ret => cases hexecute

end Machine

/-! ## Runs -/

namespace Process

variable {E : Type} {program : List Command} {oracle : Oracle E}

/-- A run from one process to another, with the processes that it steps from. -/
inductive Run (program : List Command) (oracle : Oracle E) :
    Process E → List (Process E) → Process E → Prop where
  | refl (process : Process E) : Run program oracle process [] process
  | cons {process next finish : Process E} {visited : List (Process E)}
      (hstep : process.step program oracle = some next)
      (hrest : Run program oracle next visited finish) :
      Run program oracle process (process :: visited) finish

/-- The word that a process is about to pop into `temp 0`. -/
def parks (program : List Command) (process : Process E) : Option Word :=
  (program[process.machine.position]?).bind process.machine.parks

/-- Only what is popped into `temp 0` changes it, whoever runs. -/
theorem temp_step {process next : Process E} (hstep : process.step program oracle = some next) :
    next.machine.temp 0 = (process.parks program).getD (process.machine.temp 0) := by
  obtain ⟨command, hcommand, hcases⟩ := step_cases hstep
  have hparks : process.parks program = process.machine.parks command := by
    rw [parks, hcommand]
    rfl
  rw [hparks]
  rcases hcases with ⟨machine, hexecute, rfl⟩ | ⟨name, count, rfl, rfl⟩ |
    ⟨callee, count, entry, rfl, -, rfl⟩ | ⟨value, rest, caller, callers, rfl, -, -, rfl⟩
  · exact Machine.temp_execute hexecute
  · rfl
  · rfl
  · rfl

namespace Run

variable {start middle finish : Process E} {visited first last : List (Process E)}

theorem trans (h : Run program oracle start first middle)
    (h' : Run program oracle middle last finish) :
    Run program oracle start (first ++ last) finish := by
  induction h with
  | refl => exact h'
  | cons hstep _ ih => exact .cons hstep (ih h')

/-- `temp 0` holds the last word that was popped into it. -/
theorem temp_eq (hrun : Run program oracle start visited finish) :
    finish.machine.temp 0 =
      (visited.filterMap (parks program)).getLastD (start.machine.temp 0) := by
  induction hrun with
  | refl => rfl
  | @cons process next finish visited hstep _ ih =>
    rw [ih, temp_step hstep, List.filterMap_cons]
    cases process.parks program with
    | none => rfl
    | some word => rw [List.getLastD_cons]; rfl

end Run

/-- A run goes through a process that has a property, and visits only processes with
another property before it. -/
def Through (program : List Command) (oracle : Oracle E) (start : Process E)
    (visited : List (Process E)) (finish : Process E) (there before : Process E → Prop) : Prop :=
  ∃ first last middle, visited = first ++ last ∧ Run program oracle start first middle ∧
    Run program oracle middle last finish ∧ there middle ∧ ∀ process ∈ first, before process

namespace Through

variable {start next finish : Process E} {visited : List (Process E)}
  {there before : Process E → Prop}

theorem here (hrun : Run program oracle start visited finish) (hthere : there start) :
    Through program oracle start visited finish there before :=
  ⟨[], visited, start, rfl, .refl start, hrun, hthere,
    fun _ hvisit => absurd hvisit List.not_mem_nil⟩

theorem step (hstep : start.step program oracle = some next) (hbefore : before start)
    (h : Through program oracle next visited finish there before) :
    Through program oracle start (start :: visited) finish there before := by
  obtain ⟨first, last, middle, rfl, hfirst, hlast, hthere, hall⟩ := h
  refine ⟨start :: first, last, middle, rfl, .cons hstep hfirst, hlast, hthere, ?_⟩
  intro visit hvisit
  rcases List.mem_cons.1 hvisit with rfl | hvisit
  · exact hbefore
  · exact hall visit hvisit

/-- What follows from the property of the process on the way may be said of the run. -/
theorem trans {between : Process E → Prop}
    (h : Through program oracle start visited finish between before)
    (h' : ∀ middle rest, between middle → Run program oracle middle rest finish →
      Through program oracle middle rest finish there before) :
    Through program oracle start visited finish there before := by
  obtain ⟨first, last, middle, rfl, hfirst, hlast, hbetween, hall⟩ := h
  obtain ⟨more, rest, reached, rfl, hmore, hrest, hthere, hall'⟩ := h' middle last hbetween hlast
  refine ⟨first ++ more, rest, reached, (List.append_assoc _ _ _).symm, hfirst.trans hmore, hrest,
    hthere, ?_⟩
  intro visit hvisit
  rcases List.mem_append.1 hvisit with hvisit | hvisit
  · exact hall visit hvisit
  · exact hall' visit hvisit

theorem weaken {earlier : Process E → Prop}
    (h : Through program oracle start visited finish there before)
    (hbefore : ∀ process, before process → earlier process) :
    Through program oracle start visited finish there earlier := by
  obtain ⟨first, last, middle, hvisited, hfirst, hlast, hthere, hall⟩ := h
  exact ⟨first, last, middle, hvisited, hfirst, hlast, hthere,
    fun visit hvisit => hbefore visit (hall visit hvisit)⟩

end Through

/-- A process in a known activation and place, with a number of values above a known
stack. -/
structure Stands (callers : List Caller) (position depth : Nat) (base : List Word)
    (process : Process E) : Prop where
  callers_eq : process.callers = callers
  position_eq : process.machine.position = position
  stack_eq : ∃ values : List Word, values.length = depth ∧ process.machine.stack = values ++ base

/-- One command further on, with the effect of the command on the stack. -/
theorem Stands.effect {callers : List Caller} {position depth taken given : Nat}
    {base values : List Word} {start next : Process E}
    (hstart : start.Stands callers position depth base) (henough : taken ≤ depth)
    (hcallers : next.callers = callers) (hposition : next.machine.position = position + 1)
    (hgiven : values.length = given)
    (hstack : next.machine.stack = values ++ start.machine.stack.drop taken) :
    next.Stands callers (position + 1) (depth - taken + given) base := by
  obtain ⟨found, hfound, hbase⟩ := hstart.stack_eq
  refine ⟨hcallers, hposition, values ++ found.drop taken, ?_, ?_⟩
  · rw [List.length_append, List.length_drop, hfound, hgiven, Nat.add_comm]
  · rw [hstack, hbase, List.drop_append_of_le_length (by omega), List.append_assoc]

/-- A process of a known activation that stands before one of the commands from a position
on, or a process that has been called from there. -/
def Within (callers : List Caller) (position length : Nat) (process : Process E) : Prop :=
  callers.length < process.callers.length ∨
    (process.callers = callers ∧ position ≤ process.machine.position ∧
      process.machine.position < position + length)

namespace Run

variable {start finish : Process E} {visited : List (Process E)} {callers : List Caller}

/-- A run that comes out of the activations above a caller goes through the return to
it. -/
theorem returns {above : List Caller} {caller : Caller}
    (hrun : Run program oracle start visited finish)
    (hcallers : start.callers = above ++ caller :: callers)
    (hfinish : finish.callers.length ≤ callers.length) :
    Through program oracle start visited finish (Stands callers caller.position 1 caller.stack)
      (fun visit => callers.length < visit.callers.length) := by
  -- `above` are the activations on top of the caller: calls add to them, and the return that
  -- finds none there is the one that is looked for
  induction hrun generalizing above with
  | refl process =>
    rw [hcallers, List.length_append, List.length_cons] at hfinish
    omega
  | @cons process next finish visited hstep hrest ih =>
    have hdeep : callers.length < process.callers.length := by
      rw [hcallers, List.length_append, List.length_cons]
      omega
    obtain ⟨command, hcommand, hcases⟩ := step_cases hstep
    rcases hcases with ⟨machine, hexecute, rfl⟩ | ⟨name, count, rfl, rfl⟩ |
      ⟨callee, count, entry, rfl, -, rfl⟩ | ⟨value, rest, back, others, rfl, hstack, hback, rfl⟩
    · exact .step hstep hdeep (ih hcallers hfinish)
    · exact .step hstep hdeep (ih hcallers hfinish)
    · -- the activation that is entered stands above the others
      have habove : (process.enter entry count).callers =
          (saved process.machine count :: above) ++ caller :: callers := by
        rw [enter, hcallers, List.cons_append]
      exact .step hstep hdeep (ih habove hfinish)
    · rw [hcallers] at hback
      cases above with
      | nil =>
        obtain ⟨rfl, rfl⟩ := List.cons.inj hback
        exact .step hstep hdeep (.here hrest ⟨rfl, rfl, [value], rfl, rfl⟩)
      | cons topmost above =>
        obtain ⟨rfl, rfl⟩ := List.cons.inj hback
        exact .step hstep hdeep (ih rfl hfinish)

/-- A run that comes out behind straight code in the same activation goes through its
end. -/
theorem passes {code : List Command} {position depth final : Nat} {base : List Word}
    (hrun : Run program oracle start visited finish)
    (hstart : start.Stands callers position depth base) (hcode : CodeAt program position code)
    (hdepth : depthBehind code depth = some final) (hcallers : finish.callers = callers)
    (hfinish : position + code.length ≤ finish.machine.position) :
    Through program oracle start visited finish
      (Stands callers (position + code.length) final base)
      (Within callers position code.length) := by
  -- command by command: the depth in front of the rest is the depth behind the command
  induction code generalizing start visited position depth with
  | nil =>
    cases hdepth
    exact .here hrun hstart
  | cons command rest ih =>
    obtain ⟨taken, given, heffect, henough, hrest⟩ := exists_effect_of_depthBehind hdepth
    rw [List.length_cons] at hfinish ⊢
    have hend : position + (rest.length + 1) = position + 1 + rest.length := by omega
    -- one command further on, the rest is passed
    have hon : ∀ next visits, Stands callers (position + 1) (depth - taken + given) base next →
        Run program oracle next visits finish → Through program oracle next visits finish
          (Stands callers (position + (rest.length + 1)) final base)
          (Within callers position (rest.length + 1)) := by
      intro next visits hnext hvisits
      rw [hend] at hfinish ⊢
      refine (ih hvisits hnext hcode.tail hrest hfinish).weaken ?_
      rintro visit (hdeep | ⟨hsame, hfrom, hto⟩)
      · exact .inl hdeep
      · exact .inr ⟨hsame, by omega, by omega⟩
    have hbefore : program[start.machine.position]? = some command := by
      rw [hstart.position_eq]
      exact hcode.head
    cases hrun with
    | refl =>
      have hposition := hstart.position_eq
      omega
    | @cons _ next _ visits hstep hnext =>
      have hposition := hstart.position_eq
      refine .step hstep (.inr ⟨hstart.callers_eq, by omega, by omega⟩) ?_
      obtain ⟨found, hfound, hcases⟩ := step_cases hstep
      obtain rfl : found = command := Option.some.inj (hfound.symm.trans hbefore)
      rcases hcases with ⟨machine, hexecute, rfl⟩ | ⟨name, count, rfl, rfl⟩ |
        ⟨callee, count, entry, rfl, -, rfl⟩ | ⟨value, others, back, below, rfl, -, -, rfl⟩
      · obtain ⟨hposition, -, values, hgiven, hstack⟩ := Machine.execute_effect heffect hexecute
        rw [hstart.position_eq] at hposition
        exact hon _ visits (hstart.effect henough hstart.callers_eq hposition hgiven hstack) hnext
      · cases heffect
      · -- a call of the program comes back to the next command
        cases heffect
        have habove : (start.enter entry taken).callers =
            [] ++ saved start.machine taken :: callers := by
          rw [enter, hstart.callers_eq, List.nil_append]
        have hreturns := hnext.returns habove (Nat.le_of_eq (congrArg List.length hcallers))
        refine (hreturns.weaken fun _ => .inl).trans ?_
        intro returned last hreturned hlast
        obtain ⟨values, hvalues, hstack⟩ := hreturned.stack_eq
        have hposition : returned.machine.position = position + 1 := by
          rw [hreturned.position_eq, saved, hstart.position_eq]
        exact hon returned last
          (hstart.effect henough hreturned.callers_eq hposition hvalues hstack) hlast
      · cases heffect

end Run

end Process

end Jack.Vm
