/-
What an assignment to an array element writes when its index calls subroutines.

The value waits in `temp 0` while the index is computed. A subroutine that the index
calls may pop into `temp 0` as well, to drop the value of a `do` or to let a value of
its own wait there, and no call saves `temp`. So the word that is written is the last
one that was popped into `temp 0`: the value if no subroutine called from the index
popped anything there, and what they popped last otherwise
(`compileText_store_writes`).

They need not pop the value: `compileText_store_clobbered` is a class whose assignment
of seven writes zero.
-/
import Jack.Proofs.Process
import Jack.Proofs.Simulation

set_option autoImplicit false

namespace Jack

open Vm (Command Word Oracle CodeAt depthBehind)
open Vm.Process (Run Stands Within)

/-! ## Executions -/

namespace Vm.Process

variable {E : Type} {program : List Command} {oracle : Oracle E}

/-- An execution of the commands that a process stands before: it ends when the
activation stands behind them for the first time. -/
structure Execution (program : List Command) (oracle : Oracle E) (length : Nat)
    (start : Process E) (visited : List (Process E)) (finish : Process E) : Prop where
  run : Run program oracle start visited finish
  callers_eq : finish.callers = start.callers
  position_eq : finish.machine.position = start.machine.position + length
  first_time : ∀ process ∈ visited, process.callers = start.callers →
    process.machine.position ≠ start.machine.position + length

/-- An execution of `let target[index] = value;`, whose value takes a number of commands. -/
structure StoreTrace (program : List Command) (valueLength : Nat) (start : Process E)
    (visited : List (Process E)) (finish : Process E) where
  /-- The processes that compute the value. -/
  before : List (Process E)
  /-- The process behind the commands of the value. -/
  evaluated : Process E
  /-- The processes that compute the address. -/
  during : List (Process E)
  /-- The process before the last command. -/
  last : Process E
  /-- What the commands of the value left on the stack. -/
  value : Word
  /-- What the last command writes. -/
  written : Word
  visited_eq : visited = before ++ evaluated :: (during ++ [last])
  /-- The activation has not been behind the commands of the value before. -/
  before_position : ∀ process ∈ before, process.callers = start.callers →
    process.machine.position < start.machine.position + valueLength
  evaluated_callers : evaluated.callers = start.callers
  evaluated_position : evaluated.machine.position = start.machine.position + valueLength
  evaluated_stack : evaluated.machine.stack = value :: start.machine.stack
  last_callers : last.callers = start.callers
  last_command : program[last.machine.position]? = some (.pop .that 0)
  last_stack : last.machine.stack = written :: start.machine.stack
  finish_heap : finish.machine.memory.world.heap =
    Function.update last.machine.memory.world.heap last.machine.that written
  /-- Only subroutines that the index calls pop into `temp 0`. -/
  during_called : ∀ process ∈ during, process.parks program ≠ none →
    start.callers.length < process.callers.length

/-- The words that subroutines called from the index popped into `temp 0`, in order. -/
def StoreTrace.parked {valueLength : Nat} {start finish : Process E} {visited : List (Process E)}
    (trace : StoreTrace program valueLength start visited finish) : List Word :=
  trace.during.filterMap (parks program)

/-! ## Steps of an execution -/

/-- A run ends where it starts or goes on from there. -/
theorem Run.cases_start {start finish : Process E} {visited : List (Process E)}
    (hrun : Run program oracle start visited finish) :
    (visited = [] ∧ finish = start) ∨
      ∃ next rest, visited = start :: rest ∧ start.step program oracle = some next ∧
        Run program oracle next rest finish := by
  cases hrun with
  | refl => exact .inl ⟨rfl, rfl⟩
  | @cons _ next _ rest hstep hrest => exact .inr ⟨next, rest, rfl, hstep, hrest⟩

/-- The next command of a run, if it is not about frames. -/
theorem Run.exists_execute {start finish : Process E} {visited : List (Process E)}
    {command : Command} {machine : Machine E}
    (hrun : Run program oracle start visited finish)
    (hfinish : finish.machine.position ≠ start.machine.position)
    (hcommand : program[start.machine.position]? = some command)
    (hplain : start.execute program oracle command =
      (start.machine.execute program oracle command).map start.inside)
    (hexecute : start.machine.execute program oracle command = some machine) :
    ∃ rest, visited = start :: rest ∧ Run program oracle (start.inside machine) rest finish := by
  rcases hrun.cases_start with ⟨-, rfl⟩ | ⟨next, rest, hvisited, hstep, hrest⟩
  · exact absurd rfl hfinish
  · rw [step, hcommand, Option.bind_some, hplain, hexecute] at hstep
    obtain rfl := Option.some.inj hstep
    exact ⟨rest, hvisited, hrest⟩

/-- No command of an expression pops into `temp`, so a process that does has been called
from there. -/
theorem Within.called {callers : List Caller} {position : Nat} {code : List Command}
    {process : Process E} (hcode : CodeAt program position code)
    (hevaluates : code.all Command.evaluates)
    (hwithin : process.Within callers position code.length)
    (hparks : process.parks program ≠ none) : callers.length < process.callers.length := by
  rcases hwithin with hdeep | ⟨-, hfrom, hto⟩
  · exact hdeep
  · obtain ⟨place, hplace⟩ := Nat.exists_eq_add_of_le hfrom
    have hinside : place < code.length := by omega
    have hcommand : program[process.machine.position]? = some code[place] := by
      rw [hplace, hcode.getElem? hinside, List.getElem?_eq_getElem hinside]
    have hevaluated := List.all_eq_true.1 hevaluates code[place] (List.getElem_mem hinside)
    -- a command that evaluates pops nowhere but to `pointer 1`
    have hnone : process.machine.parks code[place] = none := by
      unfold Machine.parks
      split
      · rename_i index heq
        simp [heq, Command.evaluates] at hevaluated
      · rfl
    rw [parks, hcommand, Option.bind_some] at hparks
    exact absurd hnone hparks

theorem Stands.exists_top {callers : List Caller} {position : Nat} {base : List Word}
    {process : Process E} (h : process.Stands callers position 1 base) :
    ∃ word, process.machine.stack = word :: base := by
  obtain ⟨values, hone, hstack⟩ := h.stack_eq
  obtain ⟨word, rfl⟩ := List.length_eq_one_iff.1 hone
  exact ⟨word, hstack⟩

/-- The value goes to `temp 0`. -/
theorem Run.exists_park {start finish : Process E} {visited : List (Process E)}
    {callers : List Caller} {position : Nat} {base : List Word} {word : Word}
    (hrun : Run program oracle start visited finish)
    (hstart : start.Stands callers position 1 base) (hstack : start.machine.stack = word :: base)
    (hcommand : program[position]? = some (.pop .temp 0))
    (hfinish : position < finish.machine.position) :
    ∃ waiting rest, visited = start :: rest ∧ Run program oracle waiting rest finish ∧
      waiting.Stands callers (position + 1) 0 base ∧ waiting.machine.temp 0 = word := by
  obtain ⟨hcallers, rfl, -⟩ := hstart
  obtain ⟨rest, hvisited, hrest⟩ := hrun.exists_execute (Nat.ne_of_gt hfinish) hcommand rfl
    (Machine.execute_popTemp hstack)
  refine ⟨_, rest, hvisited, hrest, ⟨hcallers, rfl, [], rfl, rfl⟩, ?_⟩
  simp [inside, Machine.park]

/-- The end of an assignment to an array element writes what is in `temp 0`. -/
theorem Run.store_end {start finish : Process E} {visited : List (Process E)} {address : Word}
    {base : List Word} {code : List Command}
    (hrun : Run program oracle start visited finish)
    (hcode : CodeAt program start.machine.position
      (.pop .pointer 1 :: .push .temp 0 :: .pop .that 0 :: code))
    (hstack : start.machine.stack = address :: base)
    (hfinish : finish.machine.position = start.machine.position + 3)
    (hfirst : ∀ process ∈ visited, process.callers = start.callers →
      process.machine.position ≠ start.machine.position + 3) :
    ∃ pointed last : Process E, visited = [start, pointed, last] ∧
      start.parks program = none ∧ pointed.parks program = none ∧
      last.callers = start.callers ∧ program[last.machine.position]? = some (.pop .that 0) ∧
      last.machine.stack = start.machine.temp 0 :: base ∧
      finish.machine.memory.world.heap = Function.update last.machine.memory.world.heap
        last.machine.that (start.machine.temp 0) := by
  let pointed := start.inside (start.machine.after 1 base start.machine.memory address)
  let last := pointed.inside (start.machine.after 2 (start.machine.temp 0 :: base)
    start.machine.memory address)
  let done := last.inside (start.machine.after 3 base
    (start.machine.memory.setHeap address (start.machine.temp 0)) address)
  have hpush : program[pointed.machine.position]? = some (.push .temp 0) := hcode.tail.head
  have hpop : program[last.machine.position]? = some (.pop .that 0) := hcode.tail.tail.head
  have hpushed : pointed.machine.position = start.machine.position + 1 := rfl
  have hpopped : last.machine.position = start.machine.position + 2 := rfl
  have hpointedRun : ∃ rest, visited = start :: rest ∧ Run program oracle pointed rest finish :=
    hrun.exists_execute (by omega) hcode.head rfl (Machine.execute_popPointer hstack)
  obtain ⟨second, rfl, hsecond⟩ := hpointedRun
  have hlastRun : ∃ rest, second = pointed :: rest ∧ Run program oracle last rest finish :=
    hsecond.exists_execute (by omega) hpush rfl (Machine.execute_pushTemp _)
  obtain ⟨third, rfl, hthird⟩ := hlastRun
  have hdoneRun : ∃ rest, third = last :: rest ∧ Run program oracle done rest finish :=
    hthird.exists_execute (by omega) hpop rfl (Machine.execute_popThat rfl)
  obtain ⟨rest, rfl, hrest⟩ := hdoneRun
  -- the process behind the last command is the first one there, so the run ends with it
  rcases hrest.cases_start with ⟨rfl, rfl⟩ | ⟨next, more, rfl, -, -⟩
  · refine ⟨pointed, last, rfl, ?_, ?_, rfl, hpop, rfl, rfl⟩
    · rw [parks, hcode.head]
      rfl
    · rw [parks, hpush]
      rfl
  · exact absurd rfl (hfirst done (by simp) rfl)

end Vm.Process

namespace Syntax

open Vm.Process (Execution StoreTrace parks)

variable {E : Type} {program : List Command} {oracle : Oracle E} {scope : Scope}

/-- The commands that compute the address of an array element. -/
def addressCode (scope : Scope) (target : String) (index : Expression) : List Command :=
  scope.pushName target ++ index.code scope ++ [.operation .add]

theorem depthBehind_addressCode {target : String} {index : Expression}
    (htarget : scope.Declares target) (hindex : index.Scoped scope) (depth : Nat) :
    depthBehind (addressCode scope target index) depth = some (depth + 1) := by
  rw [addressCode, Vm.depthBehind_append, Vm.depthBehind_append, depthBehind_pushName htarget,
    Option.bind_some, index.depthBehind_code hindex]
  rfl

theorem evaluates_addressCode (target : String) (index : Expression) :
    (addressCode scope target index).all Command.evaluates := by
  rw [addressCode, List.all_append, List.all_append, evaluates_pushName, index.evaluates_code]
  rfl

/-- An assignment computes the value, then the address, and then writes. -/
theorem code_store (target : String) (index value : Expression) (number : Nat) :
    (Statement.store target index value).code scope number =
      value.code scope ++ .pop .temp 0 :: (addressCode scope target index ++
        [.pop .pointer 1, .push .temp 0, .pop .that 0]) := by
  simp [Statement.code, storeCode, addressCode]

theorem length_code_store (target : String) (index value : Expression) (number : Nat) :
    ((Statement.store target index value).code scope number).length =
      (value.code scope).length + 1 + (addressCode scope target index).length + 3 := by
  rw [code_store, List.length_append, List.length_cons, List.length_append]
  simp only [List.length_cons, List.length_nil]
  omega

/-- Every execution of `let target[index] = value;` writes the last word that was popped
into `temp 0`. -/
theorem store_trace {start finish : Vm.Process E} {visited : List (Vm.Process E)}
    {target : String} {index value : Expression} {number : Nat}
    (hscoped : (Statement.store target index value).Scoped scope)
    (hcode : CodeAt program start.machine.position
      ((Statement.store target index value).code scope number))
    (hexecution : Execution program oracle
      ((Statement.store target index value).code scope number).length start visited finish) :
    ∃ trace : StoreTrace program (value.code scope).length start visited finish,
      trace.written = trace.parked.getLastD trace.value := by
  obtain ⟨hrun, hcallers, hposition, hfirst⟩ := hexecution
  rw [length_code_store] at hposition hfirst
  rw [code_store] at hcode
  -- the run is cut behind the value, behind `pop temp 0` and behind the address
  have hstart : start.Stands start.callers start.machine.position 0 start.machine.stack :=
    ⟨rfl, rfl, [], rfl, rfl⟩
  obtain ⟨before, rest, evaluated, rfl, -, hrest, hevaluated, hbefore⟩ :=
    hrun.passes hstart hcode.left (value.depthBehind_code hscoped.2.2 0) hcallers (by omega)
  obtain ⟨word, hword⟩ := hevaluated.exists_top
  obtain ⟨waiting, visits, rfl, hvisits, hwaiting, htemp⟩ :=
    hrest.exists_park hevaluated hword hcode.right.head (by omega)
  have haddress := hcode.right.tail.left
  obtain ⟨during, ending, addressed, rfl, hduring, hending, haddressed, hwithin⟩ :=
    hvisits.passes hwaiting haddress (depthBehind_addressCode hscoped.1 hscoped.2.1 0) hcallers
      (by omega)
  obtain ⟨place, hplace⟩ := haddressed.exists_top
  have hend : finish.machine.position = addressed.machine.position + 3 := by
    rw [hposition, haddressed.position_eq]
    omega
  have hfirstEnd : ∀ process ∈ ending, process.callers = addressed.callers →
      process.machine.position ≠ addressed.machine.position + 3 := by
    intro process hmem hsame
    rw [← hend, hposition]
    refine hfirst process ?_ (hsame.trans haddressed.callers_eq)
    simp [hmem]
  obtain ⟨pointed, last, rfl, hquiet, hquiet', hlastCallers, hlastCommand, hlastStack, hheap⟩ :=
    hending.store_end (hcode.right.tail.right.cast haddressed.position_eq.symm) hplace hend
      hfirstEnd
  refine ⟨{
    before, evaluated, last, value := word, written := addressed.machine.temp 0
    during := during ++ [addressed, pointed]
    visited_eq := by simp
    before_position := ?_
    evaluated_callers := hevaluated.callers_eq
    evaluated_position := hevaluated.position_eq
    evaluated_stack := hword
    last_callers := hlastCallers.trans haddressed.callers_eq
    last_command := hlastCommand
    last_stack := hlastStack
    finish_heap := hheap
    during_called := ?_ }, ?_⟩
  · intro process hmem hsame
    rcases hbefore process hmem with hdeep | ⟨-, -, hto⟩
    · rw [hsame] at hdeep
      exact absurd hdeep (Nat.lt_irrefl _)
    · exact hto
  · intro process hmem hparks
    rcases List.mem_append.1 hmem with hmem | hmem
    · exact (hwithin process hmem).called haddress (evaluates_addressCode target index) hparks
    · rcases List.mem_pair.1 hmem with rfl | rfl
      · exact absurd hquiet hparks
      · exact absurd hquiet' hparks
  · -- the last two processes of the address pop nothing into `temp`
    have hparked : (during ++ [addressed, pointed]).filterMap (parks program) =
        during.filterMap (parks program) := by
      simp [List.filterMap_append, hquiet, hquiet']
    have hlast := hduring.temp_eq
    rw [htemp] at hlast
    rw [StoreTrace.parked, hparked]
    exact hlast

end Syntax

/-! ## Accepted classes -/

open Syntax
open Vm.Process (Execution StoreTrace)

/-- The last of some words is a given one, if there are any. -/
theorem getLastD_eq_iff {words : List Word} {word : Word} :
    words.getLastD word = word ↔ ∀ last ∈ words.getLast?, last = word := by
  rw [List.getLastD_eq_getLast?]
  cases words.getLast? with
  | none => simp
  | some last => simp

/-- An assignment to an array element of an accepted class writes its value if and only if
the last word that subroutines called from the index popped into `temp 0` is that value,
or they popped none. -/
theorem compileText_store_writes {E : Type} (oracle : Oracle E) {source text : String}
    (hok : compileText source = .ok text) :
    ∃ tree : ClassTree, HasTokens source tree.tokens ∧ text = lines tree.code ∧
      ∀ before subroutine after, tree.subroutines = before ++ subroutine :: after →
        ∀ site ∈ subroutine.body.sites (tree.scope subroutine)
          (tree.bodyPosition before subroutine) (labelsOf before),
        ∀ target index value, site.statement = .store target index value →
        ∀ start visited finish, start.machine.position = site.position →
          Execution tree.code oracle
            (site.statement.code (tree.scope subroutine) site.number).length
            start visited finish →
          ∃ trace : StoreTrace tree.code (value.code (tree.scope subroutine)).length
              start visited finish,
            trace.written = trace.parked.getLastD trace.value ∧
            (trace.written = trace.value ↔
              ∀ word ∈ trace.parked.getLast?, word = trace.value) := by
  obtain ⟨tree, hscoped, htokens, htext⟩ := exists_tree_of_compileText hok
  refine ⟨tree, htokens, htext, ?_⟩
  intro before subroutine after hsplit site hsite target index value hstatement start visited finish
    hposition hexecution
  have hmem : subroutine ∈ tree.subroutines := by
    rw [hsplit]
    exact List.mem_append_right before List.mem_cons_self
  obtain ⟨hcode, hstore⟩ := subroutine.body.spec_of_mem_sites (tree.codeAt_body hsplit)
    (hscoped.body_scoped subroutine hmem) hsite
  rw [hstatement] at hstore hcode hexecution
  -- the code at the site is that of a store, so an execution of it is one of that code
  obtain ⟨trace, hwritten⟩ := store_trace hstore (hcode.cast hposition.symm) hexecution
  refine ⟨trace, hwritten, ?_⟩
  rw [hwritten]
  exact getLastD_eq_iff

/-! ## A value that gets lost -/

/-- A subroutine that drops the value of a call. -/
def droppingSubroutine : Subroutine where
  kind := .function
  result := some .int
  name := "f"
  parameters := []
  locals := []
  body := .cons (.invoke (.dotted "Output" "println" .nil))
    (.cons (.exit (some (.chain (.integer 0) .nil))) .nil)

/-- A subroutine that assigns seven to the element that the other one chooses. -/
def assigningSubroutine : Subroutine where
  kind := .function
  result := none
  name := "main"
  parameters := []
  locals := []
  body := .cons (.store "a" (.chain (.call (.dotted "A" "f" .nil)) .nil)
    (.chain (.integer 7) .nil)) (.cons (.exit none) .nil)

/-- The class of both. -/
def clobberingTree : ClassTree where
  name := "A"
  declarations := [⟨.static, ⟨.named "Array", "a", []⟩⟩]
  subroutines := [droppingSubroutine, assigningSubroutine]

/-- The class as it is written. -/
def clobberingSource : String :=
  "class A {
    static Array a;
    function int f() { do Output.println(); return 0; }
    function void main() { let a[A.f()] = 7; return; }
  }"

/-- Calls of other classes return zero and change nothing. -/
def silentOracle : Oracle Unit := fun _ _ world => some (0, world)

/-- The process before the assignment, with nothing in memory. -/
def clobberingStart : Vm.Process Unit where
  machine :=
    { position := 6
      stack := []
      memory :=
        { locals := fun _ => 0
          arguments := fun _ => 0
          this := 0
          world := { statics := fun _ => 0, heap := fun _ => 0, outside := () } }
      that := 0
      temp := fun _ => 0 }
  callers := []

theorem hasTokens_clobberingSource : HasTokens clobberingSource clobberingTree.tokens :=
  .of_pulled 47 (by decide +kernel)

theorem compileText_clobberingSource :
    compileText clobberingSource = .ok (lines clobberingTree.code) :=
  compileSource_of_yields clobberingTree (by decide)
    (Lexer.yields_iff_results.2 hasTokens_clobberingSource)

/-- The assignment takes twelve steps. Four of them are those of the other subroutine, and
the second of these pops zero into `temp 0`. -/
theorem clobberingStart_execution :
    ∃ visited finish,
      Execution clobberingTree.code silentOracle 8 clobberingStart visited finish ∧
      ∃ trace : StoreTrace clobberingTree.code 1 clobberingStart visited finish,
        trace.value = 7 ∧ trace.written = 0 := by
  have hvisits : ∀ visited : List (Vm.Process Unit),
      (∀ process ∈ visited, process.machine.position ≠ 14) →
      ∀ process ∈ visited, process.callers = [] → process.machine.position ≠ 14 :=
    fun _ hall process hmem _ => hall process hmem
  have hbefore : ∀ process ∈ [clobberingStart], process.callers = [] →
      process.machine.position < 7 := by
    intro process hmem _
    rw [List.mem_singleton.1 hmem]
    decide
  -- every step is computed; the second process stands behind the value, and the last one
  -- before the command that writes
  refine ⟨_, _, ⟨.cons rfl (.cons rfl (.cons rfl (.cons rfl (.cons rfl (.cons rfl (.cons rfl
    (.cons rfl (.cons rfl (.cons rfl (.cons rfl (.cons rfl (.refl _)))))))))))), rfl, rfl,
    hvisits _ (by decide)⟩, ⟨{
      before := [clobberingStart]
      evaluated := _
      during := [_, _, _, _, _, _, _, _, _]
      last := _
      value := 7
      written := 0
      visited_eq := rfl
      before_position := hbefore
      evaluated_callers := rfl
      evaluated_position := rfl
      evaluated_stack := rfl
      last_callers := rfl
      last_command := rfl
      last_stack := rfl
      finish_heap := rfl
      during_called := by decide }, rfl, rfl⟩⟩

/-- The value that an assignment writes need not be the value that is assigned. -/
theorem compileText_store_clobbered :
    compileText clobberingSource = .ok (lines clobberingTree.code) ∧
    HasTokens clobberingSource clobberingTree.tokens ∧
    ∃ site ∈ assigningSubroutine.body.sites (clobberingTree.scope assigningSubroutine)
        (clobberingTree.bodyPosition [droppingSubroutine] assigningSubroutine)
        (labelsOf [droppingSubroutine]),
      ∃ target index value, site.statement = .store target index value ∧
      ∃ start visited finish, start.machine.position = site.position ∧
        Execution clobberingTree.code silentOracle
          (site.statement.code (clobberingTree.scope assigningSubroutine) site.number).length
          start visited finish ∧
        ∃ trace : StoreTrace clobberingTree.code
            (value.code (clobberingTree.scope assigningSubroutine)).length start visited finish,
          trace.value = 7 ∧ trace.written = 0 := by
  obtain ⟨visited, finish, hexecution, trace, hvalue, hwritten⟩ := clobberingStart_execution
  refine ⟨compileText_clobberingSource, hasTokens_clobberingSource, _, List.mem_cons_self,
    "a", _, _, rfl, clobberingStart, visited, finish, rfl, hexecution, trace, hvalue, hwritten⟩

/-- The assignment writes seven if and only if the last word that was popped is seven. -/
theorem compileText_store_writes_clobbered :
    ∃ visited finish,
      Execution clobberingTree.code silentOracle 8 clobberingStart visited finish ∧
      ∃ trace : StoreTrace clobberingTree.code 1 clobberingStart visited finish,
        trace.written = trace.value ↔ ∀ word ∈ trace.parked.getLast?, word = trace.value := by
  obtain ⟨visited, finish, hexecution, -⟩ := clobberingStart_execution
  obtain ⟨tree, htokens, -, hall⟩ :=
    compileText_store_writes silentOracle compileText_clobberingSource
  obtain rfl : clobberingTree = tree := htokens.tree_unique hasTokens_clobberingSource
  obtain ⟨trace, -, hiff⟩ := hall [droppingSubroutine] assigningSubroutine [] rfl _
    List.mem_cons_self _ _ _ rfl clobberingStart visited finish rfl hexecution
  exact ⟨visited, finish, hexecution, trace, hiff⟩

end Jack
