/-
The stack on every path through a subroutine.

A path goes from command to command, both ways at an `if-goto`, and ends at a `return`.
It keeps count of the values on the stack of the frame: a `Place` is a position with
such a depth.

The depth at a position does not depend on the path. Read from its beginning to its
end, as if jumps and returns were not there, a block gives one depth to each position
(`levelAt`). The reading gives up when a command lacks values, when there is anything on
the stack at a label or a `goto`, or when a `return` or an `if-goto` finds more than its
one value. Any code that is read to its end has the depths of the reading on all its
paths, provided that its jumps stay inside (`Leveled.onLevel_of_path`): at both ends
of a jump the stack is empty.
-/
import Mathlib.Logic.Relation
import Jack.Proofs.Blocks

set_option autoImplicit false

namespace Jack

namespace Vm

/-! ## Paths -/

/-- How many values a command takes from the stack. -/
def Command.pops : Command → Nat
  | .pop _ _ => 1
  | .operation op => op.operands
  | .ifGoto _ => 1
  | .call _ count => count
  | .ret => 1
  | _ => 0

/-- How many values a command puts on the stack. -/
def Command.pushes : Command → Nat
  | .push _ _ => 1
  | .operation _ => 1
  | .call _ _ => 1
  | _ => 0

/-- The positions that a path may go on to from a command. A path ends at a `return`, and
a `function` command belongs to another block. -/
def Command.targets (program : List Command) (position : Nat) : Command → List Nat
  | .goto name => (labelPosition program name).toList
  | .ifGoto name => (position + 1) :: (labelPosition program name).toList
  | .function _ _ => []
  | .ret => []
  | _ => [position + 1]

/-- A place on a path: a position, and how many values are on the stack of the frame in
front of its command. -/
structure Place where
  position : Nat
  depth : Nat
  deriving DecidableEq, Repr

/-- The next places. There are none if the command lacks values. -/
def Place.successors (program : List Command) (place : Place) : List Place :=
  match program[place.position]? with
  | none => []
  | some command =>
    if command.pops ≤ place.depth then
      (command.targets program place.position).map fun position =>
        ⟨position, place.depth - command.pops + command.pushes⟩
    else []

/-- A path leads from one place to another. -/
def Path (program : List Command) : Place → Place → Prop :=
  Relation.ReflTransGen fun place next => next ∈ place.successors program

/-- What the next places are. -/
theorem Place.mem_successors {program : List Command} {place next : Place} :
    next ∈ place.successors program ↔
      ∃ command, program[place.position]? = some command ∧ command.pops ≤ place.depth ∧
        next.position ∈ command.targets program place.position ∧
        next.depth = place.depth - command.pops + command.pushes := by
  unfold Place.successors
  cases hcommand : program[place.position]? with
  | none => simp
  | some command =>
    by_cases henough : command.pops ≤ place.depth
    · obtain ⟨position, depth⟩ := next
      simp [henough, eq_comm]
    · simp [henough]

/-- A command with an effect goes on to the next one. -/
theorem Command.targets_of_effect {command : Command} {taken given : Nat}
    (heffect : command.effect? = some (taken, given)) (program : List Command) (position : Nat) :
    command.pops = taken ∧ command.pushes = given ∧
      command.targets program position = [position + 1] := by
  cases command with
  | goto name => cases heffect
  | ifGoto name => cases heffect
  | function name count => cases heffect
  | ret => cases heffect
  | _ =>
    obtain ⟨rfl, rfl⟩ := Prod.mk.inj (Option.some.inj heffect)
    exact ⟨rfl, rfl, rfl⟩

namespace Machine

variable {E : Type} {program : List Command} {oracle : Oracle E} {machine reached : Machine E}

/-- The place that a machine stands at. -/
def place (machine : Machine E) : Place := ⟨machine.position, machine.stack.length⟩

theorem place_of_jump {name : String} {stack : List Word}
    (hjump : machine.jump program name stack = some reached) :
    reached.position ∈ (labelPosition program name).toList ∧ reached.stack = stack := by
  unfold jump at hjump
  obtain ⟨position, hposition, rfl⟩ := Option.map_eq_some_iff.1 hjump
  exact ⟨Option.mem_toList.2 hposition, rfl⟩

/-- A step of a machine is a step of a path, whatever the values are. -/
theorem place_mem_successors (hstep : machine.step program oracle = some reached) :
    reached.place ∈ machine.place.successors program := by
  unfold step at hstep
  obtain ⟨command, hcommand, hexecute⟩ := Option.bind_eq_some_iff.1 hstep
  rw [Place.mem_successors]
  refine ⟨command, hcommand, ?_⟩
  -- jumps choose among their targets, and all else goes on to the next command
  by_cases heffect : ∃ taken given, command.effect? = some (taken, given)
  · obtain ⟨taken, given, heffect⟩ := heffect
    obtain ⟨hpops, hpushes, htargets⟩ :=
      Command.targets_of_effect heffect program machine.position
    obtain ⟨hposition, henough, values, hvalues, hstack⟩ := execute_effect heffect hexecute
    refine ⟨?_, ?_, ?_⟩
    · rw [hpops]
      exact henough
    · rw [place, place, htargets, hposition]
      exact List.mem_singleton.2 rfl
    · rw [place, place, hstack, hpops, hpushes, List.length_append, List.length_drop, hvalues,
        Nat.add_comm]
  · cases command with
    | goto name =>
      obtain ⟨htarget, hstack⟩ := place_of_jump hexecute
      exact ⟨Nat.zero_le _, htarget, congrArg List.length hstack⟩
    | ifGoto name =>
      simp only [execute] at hexecute
      split at hexecute
      · rename_i value rest hvalue
        have hlength : machine.place.depth = rest.length + 1 := congrArg List.length hvalue
        refine ⟨?_, ?_⟩
        · rw [hlength]
          exact Nat.le_add_left 1 rest.length
        · rw [hlength]
          split at hexecute
          · obtain rfl := Option.some.inj hexecute
            exact ⟨List.mem_cons_self, rfl⟩
          · obtain ⟨htarget, hstack⟩ := place_of_jump hexecute
            exact ⟨List.mem_cons_of_mem _ htarget, congrArg List.length hstack⟩
      · cases hexecute
    | function name count => cases hexecute
    | ret => cases hexecute
    | _ => exact absurd ⟨_, _, rfl⟩ heffect

/-- **Runs are paths.** A machine visits the places of a path, for every oracle. -/
theorem path_of_reaches (hreaches : Reaches program oracle machine reached) :
    Path program machine.place reached.place := by
  induction hreaches with
  | refl => exact .refl
  | tail _ hstep ih => exact .tail ih (place_mem_successors hstep)

end Machine

/-! ## Reading a block from its beginning to its end -/

/-- The depth behind a command, if the command keeps to the discipline. -/
def Command.level (depth : Nat) : Command → Option Nat
  | .label _ => if depth = 0 then some 0 else none
  | .goto _ => if depth = 0 then some 0 else none
  | .ifGoto _ => if depth = 1 then some 0 else none
  | .ret => if depth = 1 then some 0 else none
  | .function _ _ => none
  | command =>
    if command.pops ≤ depth then some (depth - command.pops + command.pushes) else none

/-- The depth behind code that keeps to the discipline. -/
def level (code : List Command) (depth : Nat) : Option Nat := code.foldlM Command.level depth

@[simp] theorem level_nil (depth : Nat) : level [] depth = some depth := rfl

@[simp] theorem level_cons (command : Command) (code : List Command) (depth : Nat) :
    level (command :: code) depth = (command.level depth).bind (level code) := rfl

@[simp] theorem level_append (first second : List Command) (depth : Nat) :
    level (first ++ second) depth = (level first depth).bind (level second) :=
  List.foldlM_append

/-- A command that keeps to the discipline finds its values and has its effect. -/
theorem Command.effect_of_level {command : Command} {depth behind : Nat}
    (hlevel : command.level depth = some behind) :
    command.pops ≤ depth ∧ behind = depth - command.pops + command.pushes := by
  cases command <;> simp only [Command.level, Option.ite_none_right_eq_some,
    Option.some.injEq, reduceCtorEq] at hlevel
  all_goals
    obtain ⟨hdepth, rfl⟩ := hlevel
    simp_all [Command.pops, Command.pushes]

/-- There is nothing on the stack at a label. -/
theorem Command.level_label {name : String} {depth behind : Nat}
    (hlevel : (Command.label name).level depth = some behind) : depth = 0 := by
  rw [Command.level, Option.ite_none_right_eq_some] at hlevel
  exact hlevel.1

/-- There is nothing on the stack behind a jump. -/
theorem Command.level_jump {command : Command} {name : String} {depth behind : Nat}
    (hname : command.jumpName? = some name) (hlevel : command.level depth = some behind) :
    behind = 0 := by
  cases command <;> simp only [Command.jumpName?, reduceCtorEq] at hname
  all_goals
    rw [Command.level, Option.ite_none_right_eq_some] at hlevel
    exact (Option.some.inj hlevel.2).symm

/-- A `return` finds one value. -/
theorem Command.level_ret {depth behind : Nat} (hlevel : Command.ret.level depth = some behind) :
    depth = 1 := by
  rw [Command.level, Option.ite_none_right_eq_some] at hlevel
  exact hlevel.1

/-- Code that keeps to the discipline has no `function` command. -/
theorem functionName?_of_level {code : List Command} {depth : Nat} (hlevel : level code depth ≠ none)
    {command : Command} (hmem : command ∈ code) : command.functionName? = none := by
  induction code generalizing depth with
  | nil => exact absurd hmem List.not_mem_nil
  | cons first rest ih =>
    rw [level_cons] at hlevel
    cases hfirst : first.level depth with
    | none =>
      rw [hfirst] at hlevel
      exact absurd rfl hlevel
    | some behind =>
      rw [hfirst, Option.bind_some] at hlevel
      rcases List.mem_cons.1 hmem with rfl | hmem
      · cases command <;> first | rfl | cases hfirst
      · exact ih hlevel hmem

/-- The depth at a position of a block that begins at another position. -/
def levelAt (program : List Command) (start position : Nat) : Option Nat :=
  level ((program.drop start).take (position - start)) 0

@[simp] theorem levelAt_start (program : List Command) (start : Nat) :
    levelAt program start start = some 0 := by
  rw [levelAt, Nat.sub_self, List.take_zero, level_nil]

/-- The depth behind a piece of the block. -/
theorem levelAt_add {program code : List Command} {start position : Nat}
    (hcode : CodeAt program position code) (hstart : start ≤ position) :
    levelAt program start (position + code.length) =
      (levelAt program start position).bind (level code) := by
  obtain ⟨rest, hdrop⟩ := hcode
  have hlength : position + code.length - start = (position - start) + code.length := by omega
  have hpiece : ((program.drop start).drop (position - start)).take code.length = code := by
    rw [List.drop_drop, Nat.add_sub_cancel' hstart, hdrop, List.take_left]
  rw [levelAt, hlength, List.take_add, hpiece, level_append]
  rfl

/-- A block that is read to its end. -/
structure Leveled (program : List Command) (start : Nat) (code : List Command) : Prop where
  codeAt : CodeAt program start code
  level_ne_none : level code 0 ≠ none
  jumpsInside : JumpsInside code
  unique : (labelNames program).Nodup
  /-- The block ends in front of a `function` command or at the end of the code. -/
  function_behind : ∀ command, program[start + code.length]? = some command →
    ∃ name count, command = .function name count

namespace Leveled

variable {program code : List Command} {start : Nat}

/-- The depths around a command of the block. -/
theorem exists_level (h : Leveled program start code) {position : Nat} (hfrom : start ≤ position)
    (hto : position < start + code.length) :
    ∃ command depth behind, program[position]? = some command ∧ command ∈ code ∧
      levelAt program start position = some depth ∧ command.level depth = some behind ∧
      levelAt program start (position + 1) = some behind := by
  obtain ⟨place, rfl⟩ := Nat.exists_eq_add_of_le hfrom
  obtain ⟨front, command, rest, rfl, rfl⟩ : ∃ front command rest,
      code = front ++ command :: rest ∧ front.length = place := by
    have hplace : place < code.length := by omega
    refine ⟨code.take place, code[place], code.drop (place + 1), ?_, ?_⟩
    · rw [← List.drop_eq_getElem_cons hplace, List.take_append_drop]
    · exact List.length_take_of_le (Nat.le_of_lt hplace)
  have hcommand : CodeAt program (start + front.length) (command :: rest) := h.codeAt.right
  have hdepth : levelAt program start (start + front.length) = level front 0 := by
    rw [levelAt_add h.codeAt.left (Nat.le_refl start), levelAt_start]
    rfl
  have hbehind : levelAt program start (start + front.length + 1) =
      (level front 0).bind command.level := by
    have hone : CodeAt program (start + front.length) [command] := hcommand.left
    have hadd := levelAt_add hone (Nat.le_add_right start front.length)
    rw [List.length_singleton, hdepth] at hadd
    rw [hadd]
    exact Option.bind_congr fun depth _ => Option.bind_fun_some _
  -- the whole of the code has a level, so its parts have one
  have hwhole := h.level_ne_none
  rw [level_append] at hwhole
  cases hfront : level front 0 with
  | none =>
    rw [hfront] at hwhole
    exact absurd rfl hwhole
  | some depth =>
    rw [hfront, Option.bind_some, level_cons] at hwhole
    cases hlevel : command.level depth with
    | none =>
      rw [hlevel] at hwhole
      exact absurd rfl hwhole
    | some behind =>
      refine ⟨command, depth, behind, hcommand.head, by simp, ?_, hlevel, ?_⟩
      · rw [hdepth, hfront]
      · rw [hbehind, hfront, Option.bind_some, hlevel]

/-- A label of the block is found in it, and nothing is on the stack there. -/
theorem exists_labelPosition (h : Leveled program start code) {name : String}
    (hlabel : .label name ∈ code) :
    ∃ target, labelPosition program name = some target ∧ start ≤ target ∧
      target < start + code.length ∧ levelAt program start target = some 0 := by
  obtain ⟨place, hplace, hat⟩ := List.getElem_of_mem hlabel
  have hposition : program[start + place]? = some (.label name) := by
    rw [h.codeAt.getElem? hplace, List.getElem?_eq_getElem hplace, hat]
  obtain ⟨command, depth, behind, hcommand, -, hdepth, hlevel, -⟩ :=
    h.exists_level (Nat.le_add_right start place) (Nat.add_lt_add_left hplace start)
  rw [hposition] at hcommand
  obtain rfl := Option.some.inj hcommand
  rw [Command.level_label hlevel] at hdepth
  exact ⟨start + place, labelPosition_eq h.unique hposition, Nat.le_add_right start place,
    Nat.add_lt_add_left hplace start, hdepth⟩

end Leveled

/-- A place of a block, with the depth of the reading. -/
structure OnLevel (program : List Command) (start length : Nat) (place : Place) : Prop where
  le_position : start ≤ place.position
  position_le : place.position ≤ start + length
  levelAt_eq : levelAt program start place.position = some place.depth

namespace Leveled

variable {program code : List Command} {start : Nat}

/-- One step of a path keeps to the depths of the reading. -/
theorem onLevel_step (h : Leveled program start code) {place next : Place}
    (hplace : OnLevel program start code.length place)
    (hstep : next ∈ place.successors program) : OnLevel program start code.length next := by
  obtain ⟨command, hcommand, henough, htarget, hdepth⟩ := Place.mem_successors.1 hstep
  by_cases hinside : place.position < start + code.length
  · obtain ⟨found, depth, behind, hfound, hmem, hlevel, hbehind, hnext⟩ :=
      h.exists_level hplace.le_position hinside
    rw [hcommand] at hfound
    obtain rfl := Option.some.inj hfound
    rw [hplace.levelAt_eq] at hlevel
    obtain rfl := Option.some.inj hlevel
    rw [← (Command.effect_of_level hbehind).2] at hdepth
    -- the next command, or the label of a jump
    have hon : next.position = place.position + 1 → OnLevel program start code.length next := by
      intro hposition
      refine ⟨?_, ?_, ?_⟩
      · rw [hposition]
        exact Nat.le_succ_of_le hplace.le_position
      · rw [hposition]
        exact hinside
      · rw [hposition, hnext, hdepth]
    have hjump : ∀ name, command.jumpName? = some name →
        next.position ∈ (labelPosition program name).toList →
        OnLevel program start code.length next := by
      intro name hname hfound
      obtain ⟨target, hposition, hfrom, hto, hlabel⟩ :=
        h.exists_labelPosition (h.jumpsInside command hmem name hname)
      rw [hposition] at hfound
      obtain rfl := List.mem_singleton.1 hfound
      refine ⟨hfrom, Nat.le_of_lt hto, ?_⟩
      rw [hlabel, hdepth, Command.level_jump hname hbehind]
    cases command with
    | goto name => exact hjump name rfl htarget
    | ifGoto name =>
      rcases List.mem_cons.1 htarget with hposition | hfound
      · exact hon hposition
      · exact hjump name rfl hfound
    | function name count => cases htarget
    | ret => cases htarget
    | _ => exact hon (List.mem_singleton.1 htarget)
  · -- the path has left the block, and has ended
    have hposition : place.position = start + code.length :=
      Nat.le_antisymm hplace.position_le (Nat.le_of_not_lt hinside)
    rw [hposition] at hcommand
    obtain ⟨name, count, rfl⟩ := h.function_behind command hcommand
    cases htarget

/-- **Every path keeps to the depths of the reading.** -/
theorem onLevel_of_path (h : Leveled program start code) {place : Place}
    (hpath : Path program ⟨start, 0⟩ place) : OnLevel program start code.length place := by
  induction hpath with
  | refl => exact ⟨Nat.le_refl _, Nat.le_add_right _ _, levelAt_start program start⟩
  | tail _ hstep ih => exact h.onLevel_step ih hstep

end Leveled

/-! ## The discipline of a block -/

/-- A path through the block that begins with the `function` command at a position: it
begins behind the command, with an empty stack. -/
def Visits (program : List Command) (start : Nat) (place : Place) : Prop :=
  Path program ⟨start + 1, 0⟩ place

/-- What holds on every path through a block of a length, from its `function` command on. -/
structure Disciplined (program : List Command) (start length : Nat) : Prop where
  /-- A path does not leave the block, except at its end. -/
  inside : ∀ place, Visits program start place →
    start < place.position ∧ place.position ≤ start + length
  /-- No command takes more values than there are. -/
  enough : ∀ place command, Visits program start place →
    program[place.position]? = some command → command.pops ≤ place.depth
  /-- The stack is empty at every label. -/
  at_label : ∀ place name, Visits program start place →
    program[place.position]? = some (.label name) → place.depth = 0
  /-- There is one value at every `return`. -/
  at_return : ∀ place, Visits program start place →
    program[place.position]? = some .ret → place.depth = 1
  /-- A path ends at a `return` or at the end of the block, and nowhere else. -/
  goes_on : ∀ place command, Visits program start place → place.position < start + length →
    program[place.position]? = some command → command ≠ .ret → place.successors program ≠ []

namespace Leveled

variable {program code : List Command} {start : Nat}

/-- What the reading says of the command at a place of a path. -/
theorem exists_level_of_visits (h : Leveled program (start + 1) code) {place : Place}
    (hvisits : Visits program start place) {command : Command}
    (hcommand : program[place.position]? = some command) :
    (place.position = start + 1 + code.length ∧ ∃ name count, command = .function name count) ∨
      command ∈ code ∧ ∃ behind, command.level place.depth = some behind := by
  have hon := h.onLevel_of_path hvisits
  by_cases hinside : place.position < start + 1 + code.length
  · obtain ⟨found, depth, behind, hfound, hmem, hlevel, hbehind, -⟩ :=
      h.exists_level hon.le_position hinside
    rw [hcommand] at hfound
    obtain rfl := Option.some.inj hfound
    rw [hon.levelAt_eq] at hlevel
    obtain rfl := Option.some.inj hlevel
    exact .inr ⟨hmem, behind, hbehind⟩
  · have hposition : place.position = start + 1 + code.length :=
      Nat.le_antisymm hon.position_le (Nat.le_of_not_lt hinside)
    rw [hposition] at hcommand
    exact .inl ⟨hposition, h.function_behind command hcommand⟩

/-- A command of the block goes on, unless it is a `return`. -/
theorem targets_ne_nil (h : Leveled program start code) {command : Command} (position : Nat)
    (hmem : command ∈ code) {depth behind : Nat} (hlevel : command.level depth = some behind)
    (hreturn : command ≠ .ret) : command.targets program position ≠ [] := by
  cases command with
  | goto name =>
    obtain ⟨target, hposition, -⟩ := h.exists_labelPosition (h.jumpsInside _ hmem name rfl)
    rw [Command.targets, hposition]
    exact List.cons_ne_nil _ _
  | function name count => cases hlevel
  | ret => exact absurd rfl hreturn
  | _ => exact List.cons_ne_nil _ _

/-- **A block that is read to its end keeps the discipline.** -/
theorem disciplined (h : Leveled program (start + 1) code) :
    Disciplined program start (code.length + 1) where
  -- all of it is read off the level of a visited place
  inside place hvisits := by
    have hon := h.onLevel_of_path hvisits
    have hfrom := hon.le_position
    have hto := hon.position_le
    omega
  enough place command hvisits hcommand := by
    rcases h.exists_level_of_visits hvisits hcommand with
      ⟨-, name, count, rfl⟩ | ⟨-, behind, hlevel⟩
    · exact Nat.zero_le _
    · exact (Command.effect_of_level hlevel).1
  at_label place name hvisits hcommand := by
    rcases h.exists_level_of_visits hvisits hcommand with
      ⟨-, _, _, hother⟩ | ⟨-, behind, hlevel⟩
    · cases hother
    · exact Command.level_label hlevel
  at_return place hvisits hcommand := by
    rcases h.exists_level_of_visits hvisits hcommand with
      ⟨-, _, _, hother⟩ | ⟨-, behind, hlevel⟩
    · cases hother
    · exact Command.level_ret hlevel
  goes_on place command hvisits hinside hcommand hreturn := by
    rcases h.exists_level_of_visits hvisits hcommand with ⟨hend, -⟩ | ⟨hmem, behind, hlevel⟩
    · omega
    · have htargets := h.targets_ne_nil place.position hmem hlevel hreturn
      unfold Place.successors
      rw [hcommand]
      simp [(Command.effect_of_level hlevel).1, htargets]

end Leveled

/-! ## Code of expressions -/

/-- Code of expressions is read like straight code. -/
theorem level_of_evaluates {code : List Command} (h : code.all Command.evaluates) (depth : Nat) :
    level code depth = depthBehind code depth := by
  induction code generalizing depth with
  | nil => rfl
  | cons command rest ih =>
    rw [List.all_cons, Bool.and_eq_true] at h
    have hcommand : command.level depth = command.depthBehind depth := by
      cases command <;> first | rfl | cases h.1
    rw [level_cons, depthBehind_cons, hcommand]
    exact Option.bind_congr fun middle _ => ih h.2 middle

/-- A path runs through code of expressions. -/
theorem Path.of_evaluates {program code : List Command} {position depth behind : Nat}
    (hcode : CodeAt program position code) (hevaluates : code.all Command.evaluates)
    (hdepth : depthBehind code depth = some behind) :
    Path program ⟨position, depth⟩ ⟨position + code.length, behind⟩ := by
  induction code generalizing position depth with
  | nil =>
    obtain rfl := Option.some.inj hdepth
    exact .refl
  | cons command rest ih =>
    obtain ⟨taken, given, heffect, henough, hrest⟩ := exists_effect_of_depthBehind hdepth
    rw [List.all_cons, Bool.and_eq_true] at hevaluates
    have htail := ih hcode.tail hevaluates.2 hrest
    have hlength : position + (command :: rest).length = position + 1 + rest.length := by
      rw [List.length_cons]
      omega
    rw [hlength]
    refine .head (Place.mem_successors.2 ⟨command, hcode.head, ?_⟩) htail
    obtain ⟨hpops, hpushes, htargets⟩ := Command.targets_of_effect heffect program position
    rw [hpops, hpushes, htargets]
    exact ⟨henough, List.mem_singleton.2 rfl, rfl⟩

end Vm

end Jack
