/-
Commands can be read back.

A command is a line of words with single blanks between them: what it does, and up to two
operands. `Command.parse?` reads such a line. It takes a line exactly when the line is a command as
it is written, with names that are not empty and hold no white space (`parse?_eq_some_iff`), so
two different commands are never written alike.

The commands of an accepted class are all of this form. Their names are put together from words
of the source, from the names of the library and from labels, and none of these has a blank or a
dot in it (`IsWord`); the one dot in the name of a routine is the one that stands between the name
of its class and its own. Since no name has a line feed either, the lines of an output are the
commands, and reading them gives the commands back.
-/
import Jack.Proofs.Isolation

set_option autoImplicit false

namespace Jack

namespace Vm

/-! ## Operands -/

/-- Every segment once. -/
def Segment.all : List Segment := [constant, argument, localVar, static, this, that, pointer, temp]

/-- The segment that is written as a given word. -/
def Segment.ofName? (word : List Char) : Option Segment := all.find? (·.render.toList == word)

theorem Segment.ofName?_eq_some_iff {word : List Char} {segment : Segment} :
    ofName? word = some segment ↔ word = segment.render.toList := by
  constructor
  · intro hfound
    have hwritten := List.find?_some hfound
    exact (beq_iff_eq.1 hwritten).symm
  · rintro rfl
    cases segment <;> decide

/-- Every operation once. -/
def Operation.all : List Operation := [add, sub, neg, eq, gt, lt, and, or, not]

/-- The operation that is written as a given word. -/
def Operation.ofName? (word : List Char) : Option Operation := all.find? (·.render.toList == word)

theorem Operation.ofName?_eq_some_iff {word : List Char} {operation : Operation} :
    ofName? word = some operation ↔ word = operation.render.toList := by
  constructor
  · intro hfound
    have hwritten := List.find?_some hfound
    exact (beq_iff_eq.1 hwritten).symm
  · rintro rfl
    cases operation <;> decide

/-- The number that is written as a given word. -/
def readNat (word : List Char) : Option Nat :=
  let value := Nat.ofDigitChars 10 word 0
  if word = (toString value).toList then some value else none

theorem readNat_eq_some_iff {word : List Char} {value : Nat} :
    readNat word = some value ↔ word = (toString value).toList := by
  rw [readNat, Option.ite_none_right_eq_some, Option.some_inj]
  constructor
  · rintro ⟨hword, rfl⟩
    exact hword
  · rintro rfl
    rw [ofDigitChars_toString]
    exact ⟨rfl, rfl⟩

/-- The number, with a sign if it is negative, that is written as a given word. -/
def readInt : List Char → Option Int
  | '-' :: word =>
    match readNat word with
    | some (value + 1) => some (.negSucc value)
    | _ => none
  | word => (readNat word).map .ofNat

theorem toList_ofNat (value : Nat) :
    (toString (Int.ofNat value)).toList = (toString value).toList := rfl

theorem toList_negSucc (value : Nat) :
    (toString (Int.negSucc value)).toList = '-' :: (toString (value + 1)).toList := by
  rw [show toString (Int.negSucc value) = "-" ++ toString (value + 1) from rfl,
    String.toList_append]
  rfl

/-- No number begins with a sign. -/
theorem toString_ne_sign (value : Nat) (rest : List Char) :
    (toString value).toList ≠ '-' :: rest := by
  intro hsign
  have hmem : '-' ∈ (toString value).toList := hsign ▸ List.mem_cons_self
  have hdigit := isDigit_of_mem_toString hmem
  exact absurd hdigit (by decide)

theorem readInt_sign (digits : List Char) (value : Int) :
    readInt ('-' :: digits) = some value ↔ '-' :: digits = (toString value).toList := by
  cases value with
  | ofNat value =>
    have hne := toString_ne_sign value digits
    rw [toList_ofNat, readInt]
    split
    · exact ⟨fun hsome => (by cases hsome), fun hword => absurd hword.symm hne⟩
    · exact ⟨fun hsome => (by cases hsome), fun hword => absurd hword.symm hne⟩
  | negSucc value =>
    rw [toList_negSucc, List.cons.injEq, ← readNat_eq_some_iff, readInt]
    split
    · next found hfound => simp [hfound]
    · next hnone => simpa using hnone value

theorem readInt_eq_some_iff {word : List Char} {value : Int} :
    readInt word = some value ↔ word = (toString value).toList := by
  by_cases hsign : ∃ digits, word = '-' :: digits
  · obtain ⟨digits, rfl⟩ := hsign
    exact readInt_sign digits value
  · have hplain : readInt word = (readNat word).map .ofNat := by
      rw [readInt]
      exact fun digits hword => hsign ⟨digits, hword⟩
    rw [hplain, Option.map_eq_some_iff]
    cases value with
    | ofNat value =>
      rw [toList_ofNat, ← readNat_eq_some_iff]
      exact ⟨fun ⟨_, hread, hvalue⟩ => Int.ofNat.inj hvalue ▸ hread, fun hread => ⟨_, hread, rfl⟩⟩
    | negSucc value =>
      have hne : word ≠ (toString (Int.negSucc value)).toList := by
        rw [toList_negSucc]
        exact fun hword => hsign ⟨_, hword⟩
      simpa using hne

/-- Text without white space. -/
def Solid (text : List Char) : Prop := ∀ c ∈ text, Text.isWhiteSpace c = false

-- by the characters of the text: there are too many characters to go through all of them
instance (text : List Char) : Decidable (Solid text) :=
  decidable_of_iff (text.all fun c => !Text.isWhiteSpace c) (by simp [Solid])

theorem solid_nat (value : Nat) : Solid (toString value).toList :=
  fun _ hc => (goesOn_of_isDigit (isDigit_of_mem_toString hc)).1.space

theorem solid_int (value : Int) : Solid (toString value).toList := by
  cases value with
  | ofNat value => exact solid_nat value
  | negSucc value =>
    rw [toList_negSucc]
    exact List.forall_mem_cons.2 ⟨by decide +kernel, solid_nat _⟩

/-- A text that can be an operand: it is not empty and has no white space in it. -/
structure IsOperand (text : String) : Prop where
  ne_nil : text.toList ≠ []
  solid : Solid text.toList

instance (text : String) : Decidable (IsOperand text) :=
  decidable_of_iff (text.toList ≠ [] ∧ Solid text.toList)
    ⟨fun ⟨h, h'⟩ => ⟨h, h'⟩, fun ⟨h, h'⟩ => ⟨h, h'⟩⟩

/-! ## The words of a command -/

namespace Command

/-- The name in a command: that of a label or of a routine. -/
def name? : Command → Option String
  | label name | goto name | ifGoto name | call name _ | function name _ => some name
  | _ => none

/-- The name of a routine in a command. -/
def routine? : Command → Option String
  | call name _ | function name _ => some name
  | _ => none

/-- The name in a command can be an operand. -/
def Readable (command : Command) : Prop := ∀ name ∈ command.name?, IsOperand name

/-- The words that a command is written with. -/
def words : Command → List (List Char)
  | push segment index => ["push".toList, segment.render.toList, (toString index).toList]
  | pop segment index => ["pop".toList, segment.render.toList, (toString index).toList]
  | operation op => [op.render.toList]
  | label name => ["label".toList, name.toList]
  | goto name => ["goto".toList, name.toList]
  | ifGoto name => ["if-goto".toList, name.toList]
  | call callee arguments => ["call".toList, callee.toList, (toString arguments).toList]
  | function name locals => ["function".toList, name.toList, (toString locals).toList]
  | ret => ["return".toList]

/-- A command is written as its words with single blanks between them. -/
theorem toList_render (command : Command) :
    command.render.toList = [' '].intercalate command.words := by
  cases command <;> simp [render, words, List.intercalate]

/-- The jump or label that an opcode makes of a name. -/
def jump? (opcode : List Char) (name : String) : Option Command :=
  if opcode = "label".toList then some (.label name)
  else if opcode = "goto".toList then some (.goto name)
  else if opcode = "if-goto".toList then some (.ifGoto name)
  else none

/-- The command of an opcode with two operands. -/
def binary? (opcode first second : List Char) : Option Command :=
  if opcode = "push".toList then
    return .push (← Segment.ofName? first) (← readInt second)
  else if opcode = "pop".toList then
    return .pop (← Segment.ofName? first) (← readInt second)
  else if opcode = "call".toList then
    return .call (String.ofList first) (← readNat second)
  else if opcode = "function".toList then
    return .function (String.ofList first) (← readNat second)
  else none

/-- The command that has these words. -/
def ofWords? : List (List Char) → Option Command
  | [word] =>
    if word = "return".toList then some .ret else (Operation.ofName? word).map .operation
  | [opcode, operand] => jump? opcode (String.ofList operand)
  | [opcode, first, second] => binary? opcode first second
  | _ => none

/-- The command that a line is. -/
def parse? (line : String) : Option Command :=
  (ofWords? (line.toList.splitOn ' ')).filter fun command => ∀ name ∈ command.name?, IsOperand name

/-- A command is told by its words. -/
theorem ofWords?_words (command : Command) : ofWords? command.words = some command := by
  have hsegment : ∀ segment : Segment, Segment.ofName? segment.render.toList = some segment :=
    fun _ => Segment.ofName?_eq_some_iff.2 rfl
  have hint : ∀ value : Int, readInt (toString value).toList = some value :=
    fun _ => readInt_eq_some_iff.2 rfl
  have hnat : ∀ value : Nat, readNat (toString value).toList = some value :=
    fun _ => readNat_eq_some_iff.2 rfl
  -- each command goes through the opcodes in front of its own
  cases command with
  | push segment index =>
    rw [words, ofWords?, binary?, if_pos rfl, hsegment, hint]
    rfl
  | pop segment index =>
    rw [words, ofWords?, binary?, if_neg (by decide), if_pos rfl, hsegment, hint]
    rfl
  | operation op =>
    rw [words, ofWords?, if_neg (by cases op <;> decide), Operation.ofName?_eq_some_iff.2 rfl]
    rfl
  | label name => rw [words, ofWords?, jump?, if_pos rfl, String.ofList_toList]
  | goto name =>
    rw [words, ofWords?, jump?, if_neg (by decide), if_pos rfl, String.ofList_toList]
  | ifGoto name =>
    rw [words, ofWords?, jump?, if_neg (by decide), if_neg (by decide), if_pos rfl,
      String.ofList_toList]
  | call callee arguments =>
    rw [words, ofWords?, binary?, if_neg (by decide), if_neg (by decide), if_pos rfl, hnat,
      String.ofList_toList]
    rfl
  | function name locals =>
    rw [words, ofWords?, binary?, if_neg (by decide), if_neg (by decide), if_neg (by decide),
      if_pos rfl, hnat, String.ofList_toList]
    rfl
  | ret => rw [words, ofWords?, if_pos rfl]

/-- No other words give the command. -/
theorem words_of_ofWords? {found : List (List Char)} {command : Command}
    (hfound : ofWords? found = some command) : found = command.words := by
  have hoperand : ∀ operand : List Char, (String.ofList operand).toList = operand :=
    fun _ => String.toList_ofList
  unfold ofWords? at hfound
  -- by the number of words, and then by the opcode
  split at hfound
  · next word =>
    split_ifs at hfound with hret
    · cases hfound
      rw [hret, words]
    · obtain ⟨op, hop, rfl⟩ := Option.map_eq_some_iff.1 hfound
      rw [words, Operation.ofName?_eq_some_iff.1 hop]
  · next opcode operand =>
    unfold jump? at hfound
    split_ifs at hfound with hopcode hopcode hopcode <;> cases hfound <;>
      rw [hopcode, words, hoperand operand]
  · next opcode first second =>
    unfold binary? at hfound
    simp only [Option.bind_eq_bind, Option.pure_def] at hfound
    split_ifs at hfound with hopcode hopcode hopcode hopcode
    · obtain ⟨segment, hsegment, hsecond⟩ := Option.bind_eq_some_iff.1 hfound
      obtain ⟨index, hindex, hpush⟩ := Option.bind_eq_some_iff.1 hsecond
      cases hpush
      rw [hopcode, words, Segment.ofName?_eq_some_iff.1 hsegment, readInt_eq_some_iff.1 hindex]
    · obtain ⟨segment, hsegment, hsecond⟩ := Option.bind_eq_some_iff.1 hfound
      obtain ⟨index, hindex, hpop⟩ := Option.bind_eq_some_iff.1 hsecond
      cases hpop
      rw [hopcode, words, Segment.ofName?_eq_some_iff.1 hsegment, readInt_eq_some_iff.1 hindex]
    · obtain ⟨arguments, harguments, hcall⟩ := Option.bind_eq_some_iff.1 hfound
      cases hcall
      rw [hopcode, words, hoperand first, readNat_eq_some_iff.1 harguments]
    · obtain ⟨locals, hlocals, hfunction⟩ := Option.bind_eq_some_iff.1 hfound
      cases hfunction
      rw [hopcode, words, hoperand first, readNat_eq_some_iff.1 hlocals]
  · cases hfound

/-- The words of a readable command hold no white space. -/
theorem Readable.solid_words {command : Command} (h : command.Readable) :
    ∀ word ∈ command.words, Solid word := by
  have hsegment : ∀ segment : Segment, Solid segment.render.toList := by
    intro segment
    cases segment <;> decide +kernel
  have hopcode : ∀ opcode ∈ ["push", "pop", "label", "goto", "if-goto", "call", "function",
      "return"], Solid opcode.toList := by
    decide +kernel
  have hoperation : ∀ op : Operation, Solid op.render.toList := by
    intro op
    cases op <;> decide +kernel
  -- opcodes and segments are fixed, numbers have digits, and the one free operand is the name
  cases command <;> simp only [words, List.forall_mem_cons, List.not_mem_nil, false_implies,
    implies_true, and_true]
  case push segment index => exact ⟨hopcode "push" (by decide), hsegment segment, solid_int index⟩
  case pop segment index => exact ⟨hopcode "pop" (by decide), hsegment segment, solid_int index⟩
  case operation op => exact hoperation op
  case label name => exact ⟨hopcode "label" (by decide), (h name rfl).solid⟩
  case goto name => exact ⟨hopcode "goto" (by decide), (h name rfl).solid⟩
  case ifGoto name => exact ⟨hopcode "if-goto" (by decide), (h name rfl).solid⟩
  case call callee arguments =>
    exact ⟨hopcode "call" (by decide), (h callee rfl).solid, solid_nat arguments⟩
  case function name locals =>
    exact ⟨hopcode "function" (by decide), (h name rfl).solid, solid_nat locals⟩
  case ret => exact hopcode "return" (by decide)

/-- **Reading and writing.** A line is read as a command exactly if it is the command as it is
written and its name can be an operand. -/
theorem parse?_eq_some_iff {line : String} {command : Command} :
    parse? line = some command ↔ command.Readable ∧ line = command.render := by
  rw [parse?, Option.filter_eq_some_iff, decide_eq_true_eq]
  constructor
  · rintro ⟨hwords, hname⟩
    refine ⟨hname, String.toList_inj.1 ?_⟩
    rw [toList_render, ← words_of_ofWords? hwords, List.intercalate_splitOn]
  · rintro ⟨hname, rfl⟩
    refine ⟨?_, hname⟩
    have hblank : ∀ word ∈ command.words, ' ' ∉ word := by
      intro word hword hmem
      exact absurd (hname.solid_words word hword _ hmem) (by decide +kernel)
    have hne : command.words ≠ [] := by cases command <;> exact List.cons_ne_nil _ _
    rw [toList_render, List.splitOn_intercalate _ hblank hne, ofWords?_words]

example : parse? "push constant 007" = none ∧ parse? "call A.f  2" = none ∧
    parse? "label " = none := by
  decide +kernel

/-- A readable command is written on one line. -/
theorem Readable.oneLine_render {command : Command} (h : command.Readable) :
    OneLine command.render := by
  have hblanks : ∀ words : List (List Char), (∀ word ∈ words, Solid word) →
      '\n' ∉ [' '].intercalate words := by
    intro words hwords
    induction words with
    | nil => exact List.not_mem_nil
    | cons word rest ih =>
      obtain ⟨hword, hrest⟩ := List.forall_mem_cons.1 hwords
      have hfeed : '\n' ∉ word := fun hmem => absurd (hword _ hmem) (by decide +kernel)
      cases rest with
      | nil => rwa [List.intercalate_singleton]
      | cons next others =>
        rw [List.intercalate_cons_cons]
        simp [hfeed, ih hrest]
  rw [OneLine, toList_render]
  exact hblanks command.words h.solid_words

end Command

/-! ## Outputs -/

open Syntax (lines splitOn_lines)

/-- The commands on the lines of a text, the last of which ends in a line feed too. -/
def readLines (text : String) : Option (List Command) :=
  let pieces := text.toList.splitOn '\n'
  if pieces.getLast? = some [] then
    pieces.dropLast.mapM fun line => Command.parse? (String.ofList line)
  else none

/-- Readable commands are read back from their lines. -/
theorem readLines_lines {commands : List Command} (h : ∀ command ∈ commands, command.Readable) :
    readLines (lines commands) = some commands := by
  have hread : (commands.map fun command => command.render.toList).mapM
      (fun line => Command.parse? (String.ofList line)) = some commands := by
    induction commands with
    | nil => rfl
    | cons command rest ih =>
      obtain ⟨hcommand, hrest⟩ := List.forall_mem_cons.1 h
      rw [List.map_cons, List.mapM_cons, String.ofList_toList,
        Command.parse?_eq_some_iff.2 ⟨hcommand, rfl⟩, ih hrest]
      rfl
  have hsplit := splitOn_lines fun command hmem => (h command hmem).oneLine_render
  rw [readLines, hsplit, List.getLast?_concat, if_pos rfl, List.dropLast_concat, hread]

/-- Lines of readable commands are written for no other readable commands. -/
theorem eq_of_lines_eq {commands others : List Command}
    (h : ∀ command ∈ commands, command.Readable) (hothers : ∀ command ∈ others, command.Readable)
    (hlines : lines others = lines commands) : others = commands := by
  have hread := readLines_lines hothers
  rw [hlines, readLines_lines h] at hread
  exact (Option.some.inj hread).symm

end Vm

/-! ## Commands of classes -/

open Vm (Command IsOperand WellNamed)
open Syntax (ClassTree Subroutine lines)

theorem IsWord.isOperand {text : String} (h : IsWord text) : IsOperand text :=
  ⟨h.ne_nil, fun c hc => (h.goesOn c hc).space⟩

/-- No word holds the character that divides the names of routines. -/
theorem IsWord.count_dot {text : String} (h : IsWord text) : text.toList.count '.' = 0 := by
  refine List.count_eq_zero.2 fun hmem => ?_
  exact absurd (h.goesOn _ hmem) (by decide +kernel)

/-- The name of a routine: that of its class and its own, with the only dot between them. -/
structure IsRoutineName (routine : String) : Prop where
  parts : ∃ owner name, IsOperand owner ∧ IsOperand name ∧ routine = owner ++ "." ++ name
  dots : routine.toList.count '.' = 1

theorem isRoutineName_of_words {owner name : String} (howner : IsWord owner) (hname : IsWord name) :
    IsRoutineName (owner ++ "." ++ name) := by
  refine ⟨⟨owner, name, howner.isOperand, hname.isOperand, rfl⟩, ?_⟩
  rw [String.toList_append, String.toList_append, List.count_append, List.count_append,
    howner.count_dot, hname.count_dot]
  rfl

theorem IsRoutineName.isOperand {routine : String} (h : IsRoutineName routine) :
    IsOperand routine := by
  obtain ⟨owner, name, howner, hname, rfl⟩ := h.parts
  have hdot : Vm.Solid ".".toList := by decide +kernel
  constructor
  · rw [String.toList_append]
    exact List.append_ne_nil_of_right_ne_nil _ hname.ne_nil
  · rw [String.toList_append, String.toList_append]
    exact List.forall_mem_append.2 ⟨List.forall_mem_append.2 ⟨howner.solid, hdot⟩, hname.solid⟩

namespace Vm.Command.WellNamed

variable {command : Command}

/-- The routines of a well-named command have the names of routines. -/
theorem isRoutineName (h : command.WellNamed) :
    ∀ routine ∈ command.routine?, IsRoutineName routine := by
  intro routine hroutine
  cases command with
  | call callee arguments | function name locals =>
    cases hroutine
    obtain ⟨owner, name, howner, hname, rfl⟩ := h
    exact isRoutineName_of_words howner hname
  | _ => cases hroutine

/-- A well-named command is read back. -/
theorem readable (h : command.WellNamed) : command.Readable := by
  intro operand hoperand
  cases command with
  | call callee arguments => exact (h.isRoutineName operand hoperand).isOperand
  | function name locals => exact (h.isRoutineName operand hoperand).isOperand
  | label name | goto name | ifGoto name =>
    cases hoperand
    obtain ⟨tag, number, rfl⟩ := h
    exact (tag.isWord_name number).isOperand
  | _ => cases hoperand

end Vm.Command.WellNamed

theorem Syntax.ClassTree.wellNamed_codeFrom {tree : ClassTree} (htokens : Syntax.Worded tree.tokens)
    {subroutines : List Subroutine} (hmem : ∀ subroutine ∈ subroutines, subroutine ∈ tree.subroutines)
    (number : Nat) : WellNamed (tree.codeFrom number subroutines) := by
  induction subroutines generalizing number with
  | nil => exact .nil
  | cons subroutine rest ih =>
    obtain ⟨hfirst, hrest⟩ := List.forall_mem_cons.1 hmem
    exact (tree.wellNamed_subroutineCode htokens hfirst number).append (ih hrest _)

/-- **The text determines the commands.** Every command whose name is not empty and holds no white
space is read back from how it is written. If a class is accepted, the lines of its output, each of
which ends in a line feed, are the commands that the class is translated to, one by one and as they
are written; all names in them are such names, and those of routines have exactly one dot. So the
output is read back as these commands, and it is the text of no others. -/
theorem readLines_compileText :
    (∀ command : Command, (∀ name ∈ command.name?, IsOperand name) →
      Command.parse? command.render = some command) ∧
    ∀ source text, compileText source = .ok text →
      ∃ tree : ClassTree, HasTokens source tree.tokens ∧ tree.WellScoped ∧
        text.toList.splitOn '\n' = tree.code.map (fun command => command.render.toList) ++ [[]] ∧
        (∀ command ∈ tree.code, (∀ name ∈ command.name?, IsOperand name) ∧
          ∀ routine ∈ command.routine?, IsRoutineName routine) ∧
        Vm.readLines text = some tree.code ∧
        ∀ commands : List Command, (∀ command ∈ commands, ∀ name ∈ command.name?, IsOperand name) →
          lines commands = text → commands = tree.code := by
  refine ⟨fun command hname => Command.parse?_eq_some_iff.2 ⟨hname, rfl⟩, ?_⟩
  intro source text hok
  obtain ⟨tree, hscoped, htokens, rfl⟩ := exists_tree_of_compileText hok
  have hnamed : WellNamed tree.code :=
    tree.wellNamed_codeFrom (fun name hmem => htokens.isWord hmem) (fun _ hmem => hmem) 0
  have hreadable : ∀ command ∈ tree.code, command.Readable := fun command hmem =>
    (hnamed command hmem).readable
  refine ⟨tree, htokens, hscoped, ?_, ?_, Vm.readLines_lines hreadable, ?_⟩
  · exact Syntax.splitOn_lines fun command hmem => (hnamed command hmem).oneLine_render
  · exact fun command hmem => ⟨hreadable command hmem, (hnamed command hmem).isRoutineName⟩
  · exact fun commands hcommands hlines => Vm.eq_of_lines_eq hreadable hcommands hlines

/-- A function that calls another class, with letters beyond ASCII in their names. -/
def greeterSource : String := "class Grüße { function void λ() { do Ä.b(); return; } }"

/-- The commands of the function. -/
def greeterCommands : List Command :=
  [.function "Grüße.λ" 0, .call "Ä.b" 0, .pop .temp 0, .push .constant 0, .ret]

theorem readLines_greeter :
    Command.parse? (Command.push .constant (-32768)).render = some (.push .constant (-32768)) ∧
    compileText greeterSource = .ok (lines greeterCommands) ∧
    Vm.readLines (lines greeterCommands) = some greeterCommands := by
  have hok : compileText greeterSource = .ok (lines greeterCommands) :=
    compileText_of_toOption _ (by decide +kernel)
  obtain ⟨tree, -, -, -, -, hread, honly⟩ := readLines_compileText.2 _ _ hok
  have hnames : ∀ command ∈ greeterCommands, ∀ name ∈ command.name?, IsOperand name := by
    decide +kernel
  refine ⟨readLines_compileText.1 _ (fun _ hname => nomatch hname),
    hok, ?_⟩
  rw [hread, honly greeterCommands hnames rfl]

end Jack
