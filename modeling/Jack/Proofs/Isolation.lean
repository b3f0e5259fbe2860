/-
Subroutines are compiled in isolation.

The output of a class is made of the outputs of classes with one subroutine each: the block of
a subroutine is what its class gives when all the other subroutines are taken away, with the
numbers of the labels moved up by the conditionals and loops that stand before it. Nothing else
carries over from one subroutine to the next, and whether a subroutine is accepted does not
depend on the others.

`shiftLabels` moves the numbers of labels in the text of an output, line by line. It is computed
from the text alone, so the statement compares outputs and not trees. The proof goes through the
commands: numbers for labels only ever enter the code of a tree as a sum with the first of them
(`Block.code_add`), and since names have no line feeds the lines of the text are the commands.
-/
import Jack.Proofs.AcceptedClass
import Jack.Proofs.Names

set_option autoImplicit false

namespace Jack

open Vm (Command WellNamed)

/-! ## Moving the numbers of labels -/

/-- A text that ends in a number, with the number increased. -/
def renumber (shift : Nat) (text : List Char) : List Char :=
  let digits := (text.reverse.takeWhile Text.isDigit).reverse
  let front := (text.reverse.dropWhile Text.isDigit).reverse
  front ++ (toString (Nat.ofDigitChars 10 digits 0 + shift)).toList

/-- The commands that name a label. -/
def labelCommands : List String := ["label ", "goto ", "if-goto "]

/-- A line of an output with the number of its label increased, if it names one. -/
def shiftLine (shift : Nat) (line : List Char) : List Char :=
  if labelCommands.any (fun opcode => opcode.toList.isPrefixOf line) then renumber shift line
  else line

/-- An output with the numbers of all its labels increased. -/
def shiftLabels (shift : Nat) (output : String) : String :=
  String.ofList (['\n'].intercalate ((output.toList.splitOn '\n').map (shiftLine shift)))

/-- Only the digits at the end change. -/
theorem renumber_append (front : List Char) (hfront : front.getLast?.any Text.isDigit = false)
    (number shift : Nat) :
    renumber shift (front ++ (toString number).toList) =
      front ++ (toString (number + shift)).toList := by
  have hall : ∀ c ∈ (toString number).toList.reverse, Text.isDigit c = true := by
    intro c hc
    exact isDigit_of_mem_toString (List.mem_reverse.1 hc)
  have hlast : ∀ c rest, front.reverse = c :: rest → ¬ Text.isDigit c = true := by
    intro c rest hreverse hdigit
    rw [List.getLast?_eq_head?_reverse, hreverse] at hfront
    exact Bool.false_ne_true (hfront.symm.trans hdigit)
  have htake : front.reverse.takeWhile Text.isDigit = [] := by
    cases hreverse : front.reverse with
    | nil => rfl
    | cons c rest => exact List.takeWhile_cons_of_neg (hlast c rest hreverse)
  have hdrop : front.reverse.dropWhile Text.isDigit = front.reverse := by
    cases hreverse : front.reverse with
    | nil => rfl
    | cons c rest => exact List.dropWhile_cons_of_neg (hlast c rest hreverse)
  rw [renumber, List.reverse_append, List.takeWhile_append_of_pos hall,
    List.dropWhile_append_of_pos hall, htake, hdrop, List.append_nil, List.reverse_reverse,
    List.reverse_reverse, ofDigitChars_toString]

/-- A command with the number of its label increased. -/
def Vm.Command.renumbered (shift : Nat) : Command → Command
  | .label name => .label (String.ofList (renumber shift name.toList))
  | .goto name => .goto (String.ofList (renumber shift name.toList))
  | .ifGoto name => .ifGoto (String.ofList (renumber shift name.toList))
  | command => command

namespace Syntax

/-- The name of a label ends in its number. -/
theorem LabelTag.renumber_name (tag : LabelTag) (number shift : Nat) :
    String.ofList (renumber shift (tag.name number).toList) = tag.name (number + shift) := by
  have hlast : tag.text.toList.getLast?.any Text.isDigit = false := by
    cases tag <;> decide
  rw [LabelTag.name, String.toList_append, renumber_append _ hlast, LabelTag.name,
    String.ofList_append, String.ofList_toList, String.ofList_toList]

/-! ## Numbers in the code of a tree -/

variable {scope : Scope}

/-- The code of expressions names no labels. -/
theorem map_renumbered_of_evaluates (shift : Nat) {code : List Command}
    (h : code.all Command.evaluates) : code.map (Command.renumbered shift) = code := by
  rw [List.all_eq_true] at h
  refine (List.map_congr_left fun command hmem => ?_).trans (List.map_id code)
  have hevaluates := h command hmem
  cases command with
  | label name => cases hevaluates
  | goto name => cases hevaluates
  | ifGoto name => cases hevaluates
  | _ => rfl

theorem map_renumbered_popName (shift : Nat) (scope : Scope) (name : String) :
    (scope.popName name).map (Command.renumbered shift) = scope.popName name := by
  unfold Scope.popName
  cases scope.resolve? name <;> rfl

theorem map_renumbered_conditionalCode (shift number : Nat) {condition : List Command}
    (hcondition : condition.all Command.evaluates) (block otherwise : List Command) :
    (conditionalCode number condition block otherwise).map (Command.renumbered shift) =
      conditionalCode (number + shift) condition (block.map (Command.renumbered shift))
        (otherwise.map (Command.renumbered shift)) := by
  simp only [conditionalCode, List.map_cons, List.map_append, List.map_nil, Command.renumbered,
    LabelTag.renumber_name, map_renumbered_of_evaluates shift hcondition]

theorem map_renumbered_loopCode (shift number : Nat) {condition : List Command}
    (hcondition : condition.all Command.evaluates) (body : List Command) :
    (loopCode number condition body).map (Command.renumbered shift) =
      loopCode (number + shift) condition (body.map (Command.renumbered shift)) := by
  simp only [loopCode, List.map_cons, List.map_append, List.map_nil, Command.renumbered,
    LabelTag.renumber_name, map_renumbered_of_evaluates shift hcondition]

mutual

/-- The number that a statement starts at moves the numbers of its labels, and nothing else. -/
theorem Statement.code_add (tree : Statement) (number shift : Nat) :
    tree.code scope (number + shift) =
      (tree.code scope number).map (Command.renumbered shift) := by
  match tree with
  | .assign target value =>
    rw [Statement.code, Statement.code, List.map_append,
      map_renumbered_of_evaluates shift value.evaluates_code, map_renumbered_popName]
  | .store target index value =>
    rw [Statement.code, Statement.code, storeCode, List.map_append, List.map_cons, List.map_append,
      List.map_append, map_renumbered_of_evaluates shift value.evaluates_code,
      map_renumbered_of_evaluates shift index.evaluates_code,
      map_renumbered_of_evaluates shift (evaluates_pushName scope target)]
    rfl
  -- the number of the statement itself moves with those of its blocks
  | .ifThen condition block =>
    rw [Statement.code, Statement.code, map_renumbered_conditionalCode _ _ condition.evaluates_code,
      ← block.code_add, Nat.add_right_comm number shift 1]
    rfl
  | .ifElse condition block otherwise =>
    rw [Statement.code, Statement.code, map_renumbered_conditionalCode _ _ condition.evaluates_code,
      ← block.code_add, ← otherwise.code_add, Nat.add_right_comm number shift 1,
      Nat.add_right_comm (number + 1) shift block.labels]
  | .loop condition body =>
    rw [Statement.code, Statement.code, map_renumbered_loopCode _ _ condition.evaluates_code,
      ← body.code_add, Nat.add_right_comm number shift 1]
  | .invoke call =>
    rw [Statement.code, Statement.code, List.map_append,
      map_renumbered_of_evaluates shift call.evaluates_code]
    rfl
  | .exit none => rfl
  | .exit (some value) =>
    rw [Statement.code, Statement.code, List.map_append,
      map_renumbered_of_evaluates shift value.evaluates_code]
    rfl

theorem Block.code_add (tree : Block) (number shift : Nat) :
    tree.code scope (number + shift) =
      (tree.code scope number).map (Command.renumbered shift) := by
  match tree with
  | .nil => rfl
  | .cons first rest =>
    rw [Block.code, Block.code, List.map_append, first.code_add,
      Nat.add_right_comm number shift first.labels, rest.code_add]

end

theorem ClassTree.subroutineCode_add (tree : ClassTree) (subroutine : Subroutine)
    (number shift : Nat) :
    tree.subroutineCode (number + shift) subroutine =
      (tree.subroutineCode number subroutine).map (Command.renumbered shift) := by
  have hentry : (entryCode (counted tree.fieldCount) subroutine.kind).map (Command.renumbered shift) =
      entryCode (counted tree.fieldCount) subroutine.kind := by
    cases subroutine.kind <;> rfl
  rw [subroutineCode, subroutineCode, List.map_cons, List.map_append, hentry,
    subroutine.body.code_add]
  rfl

/-! ## Numbers in the lines of an output -/

/-- A line that names a label ends in the number of the label, and no other line begins like
one. -/
theorem shiftLine_render (shift : Nat) {command : Command} (h : command.WellNamed) :
    shiftLine shift command.render.toList = (command.renumbered shift).render.toList := by
  have hlabel : ∀ opcode ∈ labelCommands, ∀ (tag : LabelTag) (number : Nat),
      shiftLine shift (opcode ++ tag.name number).toList =
        (opcode ++ tag.name (number + shift)).toList := by
    intro opcode hopcode tag number
    have hlast : (opcode.toList ++ tag.text.toList).getLast?.any Text.isDigit = false := by
      have hcheck : ∀ opcode ∈ labelCommands,
          (opcode.toList ++ tag.text.toList).getLast?.any Text.isDigit = false := by
        cases tag <;> decide
      exact hcheck opcode hopcode
    have hnames : labelCommands.any
        (fun word => word.toList.isPrefixOf (opcode ++ tag.name number).toList) = true := by
      refine List.any_eq_true.2 ⟨opcode, hopcode, ?_⟩
      rw [String.toList_append, List.isPrefixOf_iff_prefix]
      exact List.prefix_append _ _
    rw [shiftLine, if_pos hnames, String.toList_append, LabelTag.name, String.toList_append,
      ← List.append_assoc, renumber_append _ hlast, LabelTag.name, String.toList_append,
      String.toList_append, List.append_assoc]
  -- the words of the other commands differ from those of labels within their first letters
  have hother : ∀ line, labelCommands.any (fun word => word.toList.isPrefixOf line) = false →
      shiftLine shift line = line := by
    intro line hline
    rw [shiftLine, if_neg (by rw [hline]; exact Bool.false_ne_true)]
  cases command with
  | label name =>
    obtain ⟨tag, number, rfl⟩ := h
    rw [Command.renumbered, LabelTag.renumber_name]
    exact hlabel "label " (by decide) tag number
  | goto name =>
    obtain ⟨tag, number, rfl⟩ := h
    rw [Command.renumbered, LabelTag.renumber_name]
    exact hlabel "goto " (by decide) tag number
  | ifGoto name =>
    obtain ⟨tag, number, rfl⟩ := h
    rw [Command.renumbered, LabelTag.renumber_name]
    exact hlabel "if-goto " (by decide) tag number
  | push segment index =>
    exact hother _ (by simp [Command.render, labelCommands, List.isPrefixOf])
  | pop segment index =>
    exact hother _ (by simp [Command.render, labelCommands, List.isPrefixOf])
  | operation op => exact hother _ (by cases op <;> decide)
  | call routine arguments =>
    exact hother _ (by simp [Command.render, labelCommands, List.isPrefixOf])
  | function routine locals =>
    exact hother _ (by simp [Command.render, labelCommands, List.isPrefixOf])
  | ret => exact hother _ (by decide)

/-- The lines of an output are the commands, and nothing stands behind the last line feed. -/
theorem toList_lines (commands : List Command) :
    (lines commands).toList =
      ['\n'].intercalate (commands.map (fun command => command.render.toList) ++ [[]]) := by
  induction commands with
  | nil => rfl
  | cons command rest ih =>
    have hne : rest.map (fun command => command.render.toList) ++ [[]] ≠ [] :=
      List.append_ne_nil_of_right_ne_nil _ (List.cons_ne_nil _ _)
    have hlines : lines (command :: rest) = command.render ++ "\n" ++ lines rest := by
      rw [lines, List.map_cons, String.join_cons]
      rfl
    rw [hlines, String.toList_append, String.toList_append, ih, List.map_cons, List.cons_append,
      List.intercalate_cons_of_ne_nil hne]
    rfl

/-- Commands that are written on one line each are found again by cutting at line feeds. -/
theorem splitOn_lines {commands : List Command}
    (h : ∀ command ∈ commands, OneLine command.render) :
    (lines commands).toList.splitOn '\n' =
      commands.map (fun command => command.render.toList) ++ [[]] := by
  rw [toList_lines]
  apply List.splitOn_intercalate
  · intro line hmem
    rcases List.mem_append.1 hmem with hline | hlast
    · obtain ⟨command, hcommand, rfl⟩ := List.mem_map.1 hline
      exact h command hcommand
    · rw [List.mem_singleton.1 hlast]
      exact List.not_mem_nil
  · exact List.append_ne_nil_of_right_ne_nil _ (List.cons_ne_nil _ _)

/-- Moving the numbers in the text of commands moves those of the commands. -/
theorem shiftLabels_lines (shift : Nat) {commands : List Command} (h : WellNamed commands) :
    shiftLabels shift (lines commands) = lines (commands.map (Command.renumbered shift)) := by
  have hsplit := splitOn_lines fun command hmem => (h command hmem).oneLine_render
  have hshift : commands.map (fun command => shiftLine shift command.render.toList) =
      (commands.map (Command.renumbered shift)).map fun command => command.render.toList := by
    rw [List.map_map]
    exact List.map_congr_left fun command hmem => shiftLine_render shift (h command hmem)
  -- behind the last line feed stands an empty line, which has no number
  rw [shiftLabels, hsplit, List.map_append, List.map_map]
  change String.ofList (['\n'].intercalate
    (commands.map (fun command => shiftLine shift command.render.toList) ++ [[]])) = _
  rw [hshift, ← toList_lines, String.ofList_toList]

example : shiftLabels 3 "goto IF_END_9\ncall A.f 2\n" = "goto IF_END_12\ncall A.f 2\n" := by
  decide +kernel

/-! ## One subroutine alone -/

/-- A class with one of its subroutines alone. -/
def ClassTree.only (tree : ClassTree) (subroutine : Subroutine) : ClassTree :=
  { tree with subroutines := [subroutine] }

/-- What a subroutine may use is settled by the class around it. -/
theorem ClassTree.wellScoped_iff_only {tree : ClassTree} (hsome : tree.subroutines ≠ []) :
    tree.WellScoped ↔ ∀ subroutine ∈ tree.subroutines, (tree.only subroutine).WellScoped := by
  constructor
  · intro hscoped subroutine hmem
    refine ⟨hscoped.distinct, ?_, ?_⟩
    · intro other hother
      rw [List.mem_singleton.1 hother]
      exact hscoped.distinct_in subroutine hmem
    · intro other hother
      rw [List.mem_singleton.1 hother]
      exact hscoped.body_scoped subroutine hmem
  · intro honly
    -- without a subroutine nobody would have checked the variables of the class
    obtain ⟨first, hfirst⟩ := List.exists_mem_of_ne_nil _ hsome
    refine ⟨(honly first hfirst).distinct, ?_, ?_⟩
    · intro subroutine hmem
      exact (honly subroutine hmem).distinct_in subroutine List.mem_cons_self
    · intro subroutine hmem
      exact (honly subroutine hmem).body_scoped subroutine List.mem_cons_self

theorem ClassTree.code_only (tree : ClassTree) (subroutine : Subroutine) :
    (tree.only subroutine).code = tree.subroutineCode 0 subroutine :=
  List.append_nil _

end Syntax

open Syntax (ClassTree lines labelsOf)

/-- A source with the tokens of a class is accepted if the class is well scoped, and then its
output is the translation of the class. -/
theorem HasTokens.compileText_eq_ok_iff {source text : String} {tree : ClassTree}
    (htokens : HasTokens source tree.tokens) :
    compileText source = .ok text ↔ tree.WellScoped ∧ text = lines tree.code := by
  constructor
  · intro hok
    obtain ⟨other, hscoped, hother, htext⟩ := exists_tree_of_compileText hok
    obtain rfl := htokens.tree_unique hother
    exact ⟨hscoped, htext⟩
  · rintro ⟨hscoped, rfl⟩
    exact compileSource_of_yields tree hscoped (Lexer.yields_iff_results.2 htokens)

/-- A source that holds one subroutine of a class, and the block of the subroutine. -/
theorem HasTokens.shiftLabels_only {single : String} {tree : ClassTree}
    {subroutine : Syntax.Subroutine} (htokens : HasTokens single (tree.only subroutine).tokens)
    (number : Nat) :
    shiftLabels number (lines (tree.only subroutine).code) =
      lines (tree.subroutineCode number subroutine) := by
  have halone : WellNamed ((tree.only subroutine).subroutineCode 0 subroutine) :=
    ClassTree.wellNamed_subroutineCode (fun name hmem => htokens.isWord hmem) List.mem_cons_self 0
  have hnamed : WellNamed (tree.subroutineCode 0 subroutine) := halone
  rw [tree.code_only, Syntax.shiftLabels_lines number hnamed, ← tree.subroutineCode_add,
    Nat.zero_add]

theorem HasTokens.accepted_iff {source : String} {tree : ClassTree}
    (htokens : HasTokens source tree.tokens) :
    (∃ text, compileText source = .ok text) ↔ tree.WellScoped := by
  constructor
  · rintro ⟨text, hok⟩
    exact (htokens.compileText_eq_ok_iff.1 hok).1
  · intro hscoped
    exact ⟨_, htokens.compileText_eq_ok_iff.2 ⟨hscoped, rfl⟩⟩

/-! ## All subroutines alone -/

/-- Each source holds the class with one of the subroutines, in their order. -/
def SubroutineSources (tree : ClassTree) (singles : List String)
    (subroutines : List Syntax.Subroutine) : Prop :=
  List.Forall₂ (fun single subroutine => HasTokens single (tree.only subroutine).tokens)
    singles subroutines

namespace SubroutineSources

variable {tree : ClassTree} {singles outputs : List String} {subroutines : List Syntax.Subroutine}

theorem accepted_iff (h : SubroutineSources tree singles subroutines) :
    (∀ single ∈ singles, ∃ output, compileText single = .ok output) ↔
      ∀ subroutine ∈ subroutines, (tree.only subroutine).WellScoped := by
  unfold SubroutineSources at h
  induction h with
  | nil => exact iff_of_true (by simp) (by simp)
  | cons hfirst hrest ih =>
    rw [List.forall_mem_cons, List.forall_mem_cons, ih, hfirst.accepted_iff]

theorem outputs_eq (h : SubroutineSources tree singles subroutines)
    (houtputs : List.Forall₂ (fun single output => compileText single = .ok output)
      singles outputs) :
    outputs = subroutines.map fun subroutine => lines (tree.only subroutine).code := by
  unfold SubroutineSources at h
  induction h generalizing outputs with
  | nil =>
    cases houtputs
    rfl
  | cons hfirst hrest ih =>
    cases houtputs with
    | cons houtput hothers =>
      rw [List.map_cons, ih hothers, (hfirst.compileText_eq_ok_iff.1 houtput).2]

/-- The blocks of subroutines stand behind each other, each with its numbers moved up by the
conditionals and loops before it. -/
theorem lines_codeFrom (h : SubroutineSources tree singles subroutines) (number : Nat) :
    lines (tree.codeFrom number subroutines) =
      String.join ((subroutines.map fun subroutine => lines (tree.only subroutine).code).mapIdx
        fun i output => shiftLabels (number + labelsOf (subroutines.take i)) output) := by
  unfold SubroutineSources at h
  induction h generalizing number with
  | nil => rfl
  | @cons single subroutine singles rest hfirst hrest ih =>
    have hsplit : lines (tree.codeFrom number (subroutine :: rest)) =
        lines (tree.subroutineCode number subroutine) ++
          lines (tree.codeFrom (number + subroutine.body.labels) rest) := by
      rw [ClassTree.codeFrom, lines, List.map_append, String.join_append]
      rfl
    rw [hsplit, ih, List.map_cons, List.mapIdx_cons, String.join_cons,
      hfirst.shiftLabels_only, List.take_zero, labelsOf, Nat.add_zero]
    simp only [List.take_succ_cons, labelsOf, Nat.add_assoc]

end SubroutineSources

/-- **Subroutines are compiled in isolation.** A class with at least one subroutine is accepted
if and only if each of its subroutines is accepted alone in the class. Its output is then the
outputs for the subroutines alone, in the order of the source, where the numbers of labels are
increased by the number of conditionals and loops in the subroutines before. -/
theorem compileText_isolates_subroutines (tree : ClassTree) (hsome : tree.subroutines ≠ [])
    {source : String} {singles : List String} (htokens : HasTokens source tree.tokens)
    (hsingles : SubroutineSources tree singles tree.subroutines) :
    ((∃ text, compileText source = .ok text) ↔
      ∀ single ∈ singles, ∃ output, compileText single = .ok output) ∧
    ∀ outputs, List.Forall₂ (fun single output => compileText single = .ok output) singles outputs →
      compileText source = .ok (String.join (outputs.mapIdx fun i output =>
        shiftLabels (labelsOf (tree.subroutines.take i)) output)) := by
  have haccepted : (∃ text, compileText source = .ok text) ↔
      ∀ single ∈ singles, ∃ output, compileText single = .ok output := by
    rw [htokens.accepted_iff, hsingles.accepted_iff, ClassTree.wellScoped_iff_only hsome]
  refine ⟨haccepted, ?_⟩
  intro outputs houtputs
  have hall : ∀ single ∈ singles, ∃ output, compileText single = .ok output := by
    intro single hmem
    obtain ⟨i, hi, rfl⟩ := List.getElem_of_mem hmem
    have hlength := houtputs.length_eq
    exact ⟨outputs.get ⟨i, hlength ▸ hi⟩, houtputs.get hi (hlength ▸ hi)⟩
  obtain ⟨text, hok⟩ := haccepted.2 hall
  have htext := (htokens.compileText_eq_ok_iff.1 hok).2
  rw [ClassTree.code, hsingles.lines_codeFrom, ← hsingles.outputs_eq houtputs] at htext
  simp only [Nat.zero_add] at htext
  rw [hok, htext]

/-- A method with a conditional, and with a local that has the name of a static. -/
def clockMethod : Syntax.Subroutine where
  kind := .method
  result := none
  name := "f"
  parameters := [⟨.int, "n"⟩]
  locals := [⟨.int, "x", []⟩]
  body := .cons (.ifThen (.chain (.var "x") .nil) .nil) (.cons (.exit none) .nil)

/-- A function with a loop, in which the name is that of the static again. -/
def clockFunction : Syntax.Subroutine where
  kind := .function
  result := none
  name := "g"
  parameters := []
  locals := []
  body := .cons (.loop (.chain (.var "x") .nil) .nil) (.cons (.exit none) .nil)

/-- A class of both. -/
def clockTree : ClassTree := ⟨"A", [⟨.static, ⟨.int, "x", []⟩⟩], [clockMethod, clockFunction]⟩

/-- The text of the class. -/
def clockSource : String :=
  "class A{static int x;
  method void f(int n){var int x;if(x){}return;}
  function void g(){while(x){}return;}}"

/-- The texts of the class with one of them. -/
def clockSources : List String :=
  ["class A{static int x;method void f(int n){var int x;if(x){}return;}}",
    "class A{static int x;function void g(){while(x){}return;}}"]

/-- The outputs for these texts. -/
def clockOutputs : List String :=
  [lines [.function "A.f" 1, .push .argument 0, .pop .pointer 0, .label "IF_START_0",
    .push .localVar 0, .operation .not, .ifGoto "ELSE_0", .goto "IF_END_0", .label "ELSE_0",
    .label "IF_END_0", .push .constant 0, .ret],
  lines [.function "A.g" 0, .label "WHILE_START_0", .push .static 0, .operation .not,
    .ifGoto "WHILE_END_0", .goto "WHILE_START_0", .label "WHILE_END_0", .push .constant 0, .ret]]

theorem hasTokens_clockSource : HasTokens clockSource clockTree.tokens :=
  .of_pulled 50 (by decide +kernel)

theorem subroutineSources_clock :
    SubroutineSources clockTree clockSources clockTree.subroutines :=
  .cons (.of_pulled 34 (by decide +kernel)) (.cons (.of_pulled 28 (by decide +kernel)) .nil)

/-- The loop of the function has the number 1 in the class and the number 0 alone. -/
theorem compileText_isolates_clock :
    clockTree.subroutines ≠ [] ∧ HasTokens clockSource clockTree.tokens ∧
    SubroutineSources clockTree clockSources clockTree.subroutines ∧
    List.Forall₂ (fun single output => compileText single = .ok output) clockSources
      clockOutputs ∧
    compileText clockSource = .ok (String.join (clockOutputs.mapIdx fun i output =>
      shiftLabels (labelsOf (clockTree.subroutines.take i)) output)) ∧
    String.join (clockOutputs.mapIdx fun i output =>
      shiftLabels (labelsOf (clockTree.subroutines.take i)) output) =
      lines [.function "A.f" 1, .push .argument 0, .pop .pointer 0, .label "IF_START_0",
        .push .localVar 0, .operation .not, .ifGoto "ELSE_0", .goto "IF_END_0", .label "ELSE_0",
        .label "IF_END_0", .push .constant 0, .ret, .function "A.g" 0, .label "WHILE_START_1",
        .push .static 0, .operation .not, .ifGoto "WHILE_END_1", .goto "WHILE_START_1",
        .label "WHILE_END_1", .push .constant 0, .ret] := by
  have hmethod : (clockTree.only clockMethod).WellScoped := by decide
  have hfunction : (clockTree.only clockFunction).WellScoped := by decide
  obtain ⟨hfirst, hrest⟩ := List.forall₂_cons.1 subroutineSources_clock
  have houtputs : List.Forall₂ (fun single output => compileText single = .ok output)
      clockSources clockOutputs :=
    .cons (hfirst.compileText_eq_ok_iff.2 ⟨hmethod, congrArg lines (by decide)⟩)
      (.cons ((List.forall₂_cons.1 hrest).1.compileText_eq_ok_iff.2
        ⟨hfunction, congrArg lines (by decide)⟩) .nil)
  have hblocks := (compileText_isolates_subroutines clockTree (by decide) hasTokens_clockSource
    subroutineSources_clock).2 _ houtputs
  refine ⟨by decide, hasTokens_clockSource, subroutineSources_clock, houtputs, hblocks, ?_⟩
  -- the text is that of the whole class, whose commands can be computed
  rw [(hasTokens_clockSource.compileText_eq_ok_iff.1 hblocks).2]
  exact congrArg lines (by decide)

end Jack
