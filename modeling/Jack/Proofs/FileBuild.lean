/-
What compiling one file leaves on a disk.

Compiling a file does what compiling its text in memory does, as far as it gets to it. What can
come in between is a source that is not there, or not text, or not named like one, a token dump
that fails, or no place for the output. `Begun` says when none of this keeps the output from being
created; from then on the output is made complete or removed (`Compiled`). Removing may fail, and
nobody is told: in a locked directory the output then stays as far as it was made.

A token dump in front of the compilation has a name of its own, and its name is not that of a
source. So, on a disk without links, it changes neither what the compilation reads nor what is
found in the place of the output (`compiled_output`), and the outcome of the whole call can be told
from the disk it began with (`FileOutcome`). With links all of this fails: an output that is a link
to its source empties the source before it is read.
-/
import Jack.Proofs.AcceptedClass
import Jack.Proofs.BuildEffect
import Jack.Proofs.FullSink
import Jack.Proofs.TextLines

set_option autoImplicit false

namespace Jack

/-! ## Sources that can be read -/

namespace Source

/-- The bytes of a string are those of its characters. -/
theorem encoded_toList (text : String) : encoded text.toList = text.toUTF8.data.toList := by
  have hbytes := toUTF8_ofList text.toList
  rw [String.ofList_toList] at hbytes
  rw [hbytes, List.data_toByteArray]

/-- A line that can be read is what some text is encoded to, with the returns at its end and all. -/
theorem exists_encoded_of_decodeLine {bytes : List UInt8} {characters : List Char}
    (hdecode : decodeLine bytes = .text characters) : ∃ text, bytes = encoded text := by
  unfold decodeLine at hdecode
  split at hdecode
  · next text htext =>
    unfold String.fromUTF8? at htext
    split at htext
    · next hvalid =>
      cases htext
      refine ⟨(String.fromUTF8 bytes.toByteArray hvalid).toList, ?_⟩
      rw [encoded_toList]
      exact (congrArg Array.toList (List.data_toByteArray (l := bytes))).symm
    · cases htext
  · cases hdecode

/-- Lines that were cut off stay. -/
theorem mem_cutLines {line : List UInt8} {lines : List (List UInt8)} {bytes found : List UInt8}
    (hmem : found ∈ lines) : found ∈ cutLines line lines bytes := by
  induction bytes generalizing line lines with
  | nil =>
    rw [cutLines]
    split
    · exact List.mem_reverse.2 hmem
    · exact List.mem_reverse.2 (List.mem_cons_of_mem _ hmem)
  | cons byte rest ih =>
    rw [cutLines]
    split
    · exact ih (List.mem_cons_of_mem _ hmem)
    · exact ih hmem

/-- Lines that are text are the lines of a text. -/
theorem exists_encoded_of_cutLines {line : List UInt8} {lines : List (List UInt8)}
    {bytes : List UInt8}
    (htext : ∀ found ∈ cutLines line lines bytes, ∃ text, found = encoded text) :
    ∃ text, line.reverse ++ bytes = encoded text := by
  induction bytes generalizing line lines with
  | nil =>
    rw [cutLines] at htext
    rw [List.append_nil]
    by_cases hline : line = []
    · exact ⟨[], by rw [hline]; rfl⟩
    · apply htext
      rw [if_neg (by simpa using hline)]
      exact List.mem_reverse.2 List.mem_cons_self
  | cons byte rest ih =>
    rw [cutLines] at htext
    by_cases hbyte : byte = lineFeed
    -- a line feed is a character of its own, so the texts in front of it and behind it join
    · rw [if_pos hbyte] at htext
      obtain ⟨first, hfirst⟩ := htext _ (mem_cutLines List.mem_cons_self)
      obtain ⟨second, hsecond⟩ := ih htext
      refine ⟨first ++ '\n' :: second, ?_⟩
      have hfeed : encoded ('\n' :: second) = lineFeed :: encoded second := rfl
      rw [encoded_append, ← hfirst, hfeed, ← hsecond, hbyte]
      rfl
    · rw [if_neg hbyte] at htext
      obtain ⟨text, hwhole⟩ := ih htext
      refine ⟨text, ?_⟩
      rw [← hwhole]
      simp

/-- Bytes without a line that cannot be read are the bytes of a text. -/
theorem exists_text_of_readable {bytes : List UInt8}
    (hreadable : ∀ cause, .unreadable cause ∉ ofBytes bytes) :
    ∃ text : String, bytes = text.toUTF8.data.toList := by
  have hlines : ∀ found ∈ cutLines [] [] bytes, ∃ text, found = encoded text := by
    intro found hmem
    have hdecoded : decodeLine found ∈ ofBytes bytes := List.mem_map_of_mem hmem
    cases hline : decodeLine found with
    | text characters => exact exists_encoded_of_decodeLine hline
    | unreadable cause =>
      rw [hline] at hdecoded
      exact absurd hdecoded (hreadable cause)
  obtain ⟨text, hwhole⟩ := exists_encoded_of_cutLines hlines
  refine ⟨String.ofList text, ?_⟩
  rw [← encoded_toList, String.toList_ofList, ← hwhole]
  rfl

end Source

/-- A line that cannot be read is told of. -/
theorem mem_eventsFrom_of_unreadable {source : Source} {cause : IoCause}
    (hmem : .unreadable cause ∈ source) (inComment : Bool) (linesRead : Nat) :
    .error (.io cause) ∈ eventsFrom inComment linesRead source := by
  fun_induction eventsFrom inComment linesRead source with
  | case1 => exact absurd hmem List.not_mem_nil
  | case2 inComment linesRead found rest ih =>
    rcases List.mem_cons.1 hmem with hfirst | hrest
    · cases hfirst
      exact List.mem_cons_self
    · exact List.mem_cons_of_mem _ (ih hrest)
  | case3 inComment linesRead characters rest fault hscan ih =>
    rcases List.mem_cons.1 hmem with hfirst | hrest
    · cases hfirst
    · exact List.mem_cons_of_mem _ (ih hrest)
  | case4 inComment linesRead characters rest scan hscan ih =>
    rcases List.mem_cons.1 hmem with hfirst | hrest
    · cases hfirst
    · exact List.mem_append_right _ (ih hrest)

/-- A source that yields tokens and no error has no line that cannot be read. -/
theorem Lexer.Yields.readable {source : Source} {tokens : List Token}
    (hyields : Lexer.Yields { lines := source } tokens) (cause : IoCause) :
    .unreadable cause ∉ source := by
  intro hmem
  have hresults := Lexer.yields_iff_results.1 hyields
  rw [Lexer.results_eq_pending (Lexer.aligned_start source)] at hresults
  have herror : Except.error (.io cause) ∈
      (Lexer.pending { lines := source }).map Event.result :=
    List.mem_map_of_mem (List.mem_append_right _ (mem_eventsFrom_of_unreadable hmem false 0))
  rw [hresults] at herror
  obtain ⟨token, -, hok⟩ := List.mem_map.1 herror
  cases hok

/-! ## What is made of a source -/

namespace Build

/-- The bytes that are saved are those of the text that compiling in memory gives. -/
theorem whole_codeOf (lines : Source) :
    whole (codeOf lines) = (compileSource lines).map String.toUTF8 := by
  cases hcompile : Compiler.compile (.start { lines } {}) with
  | error error reached => simp [whole, codeOf, compileSource, Compiler.run, hcompile, Except.map]
  | ok _ reached =>
    obtain ⟨tree, hscoped, hyields⟩ := Compiler.compile_passed hcompile
    obtain ⟨last, hagain, hbytes⟩ := Compiler.compile_stage tree hscoped hyields
    rw [hcompile] at hagain
    cases hagain
    simp [whole, codeOf, compileSource, Compiler.run, hcompile, Except.map,
      Vm.Sink.text_of_bytes hbytes, hbytes]

/-- What is compiled to its end can be compiled in memory. -/
theorem codeOf_eq_ok_iff {lines : Source} :
    (codeOf lines).1 = .ok () ↔ ∃ output, compileSource lines = .ok output := by
  unfold codeOf compileSource
  cases hrun : (Compiler.run lines).1 <;> simp [hrun, Except.map]

/-- The tag that closes a dump, as a line. -/
def closingTag : String := "</tokens>\n"

/-- A dump that was made to its end is closed. -/
theorem closingTag_suffix {lines : Source} {bytes : ByteArray}
    (hdump : whole (dumpOf lines) = .ok bytes) :
    closingTag.toUTF8.data.toList <:+ bytes.data.toList := by
  unfold whole dumpOf TokenDump.ofSource at hdump
  cases hwrite : TokenDump.write { lines } {} with
  | error error sink =>
    rw [hwrite] at hdump
    cases hdump
  | ok _ sink =>
    rw [hwrite] at hdump
    cases hdump
    -- the closing tag is the last thing that is written
    obtain ⟨before, hlast⟩ : ∃ before : Vm.Sink, before.write closingTag = .ok () sink := by
      unfold TokenDump.write at hwrite
      simp only [bind, EStateM.bind] at hwrite
      split at hwrite
      · split at hwrite
        · exact ⟨_, hwrite⟩
        · cases hwrite
      · cases hwrite
    rw [Vm.Sink.bytes_of_write hlast, ByteArray.data_append, Array.toList_append]
    exact List.suffix_append _ _

/-- A source that is compiled can be read. -/
theorem readable_of_compileSource {lines : Source} {output : String}
    (hok : compileSource lines = .ok output) (cause : IoCause) : .unreadable cause ∉ lines := by
  obtain ⟨tree, -, hyields, -⟩ := exists_tree_of_compileSource hok
  exact hyields.readable cause

end Build

/-! ## Where outputs are -/

/-- The name at a location is that of an output of a source: its stem with an ending. -/
def IsOutput (source ending : String) (location : Location) : Prop :=
  ∃ stem parent, Path.stem? source = some stem ∧ location = (stem ++ ending) :: parent

/-- No source is where an output is. -/
theorem IsOutput.locate_ne {source ending other : String} {location : Location}
    (h : IsOutput source ending location) (hending : Path.Ending ending)
    (hother : Path.isSource other = true) (disk : Disk) : disk.locate other ≠ .ok location := by
  intro hlocate
  obtain ⟨stem, parent, hstem, rfl⟩ := h
  obtain ⟨name, hname, hisSource⟩ := Path.exists_fileName_of_isSource hother
  obtain ⟨folder, -, hlocation⟩ := Disk.exists_folder_of_locate hname hlocate
  obtain ⟨hsame, -⟩ := List.cons.inj hlocation
  rw [← hsame, Path.isSource_output hstem hending] at hisSource
  cases hisSource

/-- A dump is never where the commands of a source are, not even those of another source. -/
theorem IsOutput.dump_ne_code {source other : String} {location location' : Location}
    (hdump : IsOutput source "T.xml" location) (hcode : IsOutput other ".vm" location') :
    location ≠ location' := by
  obtain ⟨stem, parent, -, rfl⟩ := hdump
  obtain ⟨stem', parent', -, rfl⟩ := hcode
  intro hsame
  have hlast := congrArg (fun name => name.toList.getLast?) (List.cons.inj hsame).1
  simp at hlast

namespace Disk

/-- The directory for the outputs of a source: a directory of one's choice, or the one that the
source is in. -/
def OutputFolder (disk : Disk) (options : BuildOptions) (source : String) (parent : Location) :
    Prop :=
  match options.outDir with
  | some directory => disk.folder directory = .ok parent
  | none => ∃ name, disk.locate source = .ok (name :: parent)

/-- A location of an output of a source. -/
def OutputAt (disk : Disk) (source : String) (options : BuildOptions) (ending : String)
    (location : Location) : Prop :=
  ∃ stem parent, Path.stem? source = some stem ∧ disk.OutputFolder options source parent ∧
    location = (stem ++ ending) :: parent

/-- What lies in the right directory has the right name. -/
theorem OutputAt.isOutput {disk : Disk} {source ending : String} {options : BuildOptions}
    {location : Location} (h : disk.OutputAt source options ending location) :
    IsOutput source ending location := by
  obtain ⟨stem, parent, hstem, -, hlocation⟩ := h
  exact ⟨stem, parent, hstem, hlocation⟩

/-- Without a directory of one's choice an output goes where the source is, and that is what the
path of the directory leads to. -/
theorem outputFolder_of_folder {disk : Disk} {source stem : String} {options : BuildOptions}
    {found parent : Location} (hstem : Path.stem? source = some stem)
    (hsource : disk.locate source = .ok found)
    (hparent : disk.folder (options.outDir.getD (Path.directory source)) = .ok parent) :
    disk.OutputFolder options source parent := by
  unfold OutputFolder
  cases hout : options.outDir with
  | some directory =>
    rw [hout] at hparent
    exact hparent
  | none =>
    obtain ⟨name, hname, -⟩ := Option.map_eq_some_iff.1 hstem
    obtain ⟨parent', hfolder, rfl⟩ := exists_folder_of_locate hname hsource
    rw [hout, Option.getD_none, hfolder] at hparent
    cases hparent
    exact ⟨_, hsource⟩

/-- Where the path of an output leads. -/
theorem exists_parent_of_outputPath {disk : Disk} {source target ending : String}
    {options : BuildOptions} {location : Location} (hending : Path.Ending ending)
    (htarget : Build.outputPath source options ending = .ok target)
    (hlocate : disk.locate target = .ok location) :
    ∃ stem parent, Path.stem? source = some stem ∧
      disk.folder (options.outDir.getD (Path.directory source)) = .ok parent ∧
      location = (stem ++ ending) :: parent := by
  unfold Build.outputPath at htarget
  cases hstem : Path.stem? source with
  | none =>
    rw [hstem] at htarget
    cases htarget
  | some stem =>
    rw [hstem] at htarget
    cases htarget
    obtain ⟨-, -, -, parent, hparent, -, hlocation⟩ :=
      (locate_join_eq_ok_iff (Path.proper_output hstem hending)).1 hlocate
    exact ⟨stem, parent, rfl, hparent, hlocation⟩

/-- Wherever the path of an output leads, the last name is that of the output. -/
theorem isOutput_of_locate {disk : Disk} {source target ending : String} {options : BuildOptions}
    {location : Location} (hending : Path.Ending ending)
    (htarget : Build.outputPath source options ending = .ok target)
    (hlocate : disk.locate target = .ok location) : IsOutput source ending location := by
  obtain ⟨stem, parent, hstem, -, hlocation⟩ :=
    exists_parent_of_outputPath hending htarget hlocate
  exact ⟨stem, parent, hstem, hlocation⟩

/-- An output is never where its source is. -/
theorem locate_output_ne (disk : Disk) {source target ending : String} {options : BuildOptions}
    (hsource : Path.isSource source = true) (hending : Path.Ending ending)
    (htarget : Build.outputPath source options ending = .ok target) (location : Location)
    (hlocate : disk.locate source = .ok location) : disk.locate target ≠ .ok location :=
  fun hsame => (isOutput_of_locate hending htarget hsame).locate_ne hending hsource disk hlocate

/-- Making an output touches no location but its own, in the directory for outputs. -/
theorem output_frame {disk : Disk} (hunlinked : disk.Unlinked) {source : String}
    (hsource : Path.isSource source = true) (options : BuildOptions) {ending : String}
    (hending : Path.Ending ending) (make : Source → Except Error Unit × ByteArray) :
    disk.Frame (disk.output source options ending make).2
      (disk.OutputAt source options ending) := by
  unfold output Build.andThen
  cases htarget : Build.outputPath source options ending with
  | error error => exact .refl disk _
  | ok target =>
    have hapart := disk.locate_output_ne hsource hending htarget
    refine (produce_frame hunlinked hapart make).mono ?_
    rintro location ⟨⟨found, hsource⟩, hlocate⟩
    obtain ⟨stem, parent, hstem, hparent, hlocation⟩ :=
      exists_parent_of_outputPath hending htarget hlocate
    exact ⟨stem, parent, hstem, outputFolder_of_folder hstem hsource hparent, hlocation⟩

end Disk

/-! ## Compiling one file -/

/-- What can be removed is a matter of directories. -/
theorem Disk.SameFolders.removable_iff {disk other : Disk} (h : disk.SameFolders other)
    {path : String} : other.Removable path ↔ disk.Removable path := by
  unfold Removable
  simp only [h.locate_eq_ok_iff, h.locked]

/-- Where an output could be removed, it can be created as long as the directories stay. -/
theorem Disk.SameFolders.creatable_of_removable {disk other : Disk} (h : disk.SameFolders other)
    {path : String} (hremovable : disk.Removable path) (hplace : disk.Creatable path) :
    other.Creatable path := by
  obtain ⟨location, hlocate, hfree, -⟩ := hplace
  refine ⟨location, h.locate_eq_ok_iff.2 hlocate, mt (h.directory_iff location).1 hfree, fun _ => ?_⟩
  rw [h.locked]
  exact hremovable location hlocate

/-- What is read from a path depends on what is found there. -/
theorem Disk.readSource_eq_ok_congr {disk other : Disk} {path : String}
    (hat : other.at? path = disk.at? path) {lines : Source} :
    other.readSource path = .ok lines ↔ disk.readSource path = .ok lines := by
  rw [readSource_eq_ok_iff, readSource_eq_ok_iff, hat]

namespace Build

/-- What a compilation of a source gives, and what its output is like afterwards. `begun` says
whether the output was created. -/
structure Compiled (disk : Disk) (source target : String) (begun : Prop)
    (result : Except Error String) (reached : Disk) : Prop where
  done : ∀ path, result = .ok path → path = target ∧
    ∃ text output, disk.at? source = some (.file text.toUTF8.data.toList) ∧
      compileText text = .ok output ∧
      reached.at? target = some (.file output.toUTF8.data.toList)
  failed : ∀ error, result = .error error →
    (begun ∧ disk.Abandoned source target codeOf reached) ∨
      (¬ begun ∧ reached.at? target = disk.at? target)
  agrees : begun → ∀ text, disk.at? source = some (.file text.toUTF8.data.toList) →
    result = (compileText text).map fun _ => target

/-- A compilation whose output is not begun. -/
theorem Compiled.of_not_begun {disk reached : Disk} {source target : String} {begun : Prop}
    (hbegun : ¬ begun) (error : Error) (hsame : reached.at? target = disk.at? target) :
    Compiled disk source target begun (.error error) reached where
  done _ hok := nomatch hok
  failed _ _ := .inr ⟨hbegun, hsame⟩
  agrees h := absurd h hbegun

/-- A source that was opened and compiled is a file with a text. -/
theorem exists_text_of_codeOf {disk : Disk} {source : String} {lines : Source} {bytes : ByteArray}
    (hread : disk.readSource source = .ok lines) (hcode : whole (codeOf lines) = .ok bytes) :
    ∃ text output, disk.at? source = some (.file text.toUTF8.data.toList) ∧
      compileText text = .ok output ∧ bytes = output.toUTF8 := by
  rw [whole_codeOf] at hcode
  cases hcompile : compileSource lines with
  | error error =>
    rw [hcompile] at hcode
    cases hcode
  | ok output =>
    rw [hcompile] at hcode
    cases hcode
    have hreadable := readable_of_compileSource hcompile
    rcases Disk.readSource_eq_ok_iff.1 hread with ⟨content, hfile, rfl⟩ | ⟨-, rfl⟩
    · obtain ⟨text, rfl⟩ := Source.exists_text_of_readable hreadable
      exact ⟨text, output, hfile, hcompile, rfl⟩
    · exact absurd List.mem_cons_self (hreadable .isDirectory)

/-- The source of a text is compiled as the text is in memory. -/
theorem codeOf_of_text {disk : Disk} {source text : String} {lines : Source}
    (hread : disk.readSource source = .ok lines)
    (hsource : disk.at? source = some (.file text.toUTF8.data.toList)) :
    whole (codeOf lines) = (compileText text).map String.toUTF8 := by
  rcases Disk.readSource_eq_ok_iff.1 hread with ⟨content, hfile, rfl⟩ | ⟨hdirectory, -⟩
  · rw [hsource] at hfile
    cases hfile
    exact whole_codeOf _
  · rw [hsource] at hdirectory
    cases hdirectory

/-- Making the commands of a source, on the disk as it is. Everything in front of it comes later
(`compiled_output`). -/
theorem compiled_produce {disk : Disk} {source target : String} (hunlinked : disk.Unlinked)
    (hapart : ∀ location, disk.locate source = .ok location → disk.locate target ≠ .ok location) :
    Compiled disk source target
      ((∃ lines, disk.readSource source = .ok lines) ∧ disk.Creatable target)
      (disk.produce source target codeOf).1 (disk.produce source target codeOf).2 := by
  refine ⟨fun path hok => ?_, fun error herror => ?_, ?_⟩
  · rcases Disk.produce_target hunlinked hapart codeOf with ⟨error, herror, -⟩ |
      ⟨lines, bytes, hresult, hread, hcode, hmade⟩
    · rw [herror] at hok
      cases hok
    · rw [hresult] at hok
      cases hok
      obtain ⟨text, output, hsource, hcompile, rfl⟩ := exists_text_of_codeOf hread hcode
      exact ⟨rfl, text, output, hsource, hcompile, hmade⟩
  · rcases Disk.produce_target hunlinked hapart codeOf with ⟨_, -, hleft⟩ |
      ⟨_, _, hresult, -, -, -⟩
    · exact hleft
    · rw [hresult] at herror
      cases herror
  · rintro ⟨⟨lines, hread⟩, hplace⟩ text hsource
    rw [Disk.produce_result hunlinked hapart codeOf hread hplace, codeOf_of_text hread hsource]
    cases compileText text <;> rfl

/-- What a compilation says about a disk, it says about any disk with the same directories, the
same source and the same output. -/
theorem Compiled.transport {disk middle reached : Disk} {source target : String}
    {begun begun' : Prop} {result : Except Error String}
    (h : Compiled middle source target begun result reached) (hfolders : disk.SameFolders middle)
    (hsource : middle.at? source = disk.at? source) (htarget : middle.at? target = disk.at? target)
    (hbegun : begun' ↔ begun) : Compiled disk source target begun' result reached := by
  -- the target, the source and the directories are all that a compilation speaks of
  obtain ⟨hdone, hfailed, hagrees⟩ := h
  rw [hsource] at hdone hagrees
  refine ⟨hdone, fun error herror => ?_, by rwa [hbegun]⟩
  rw [hbegun, ← htarget]
  refine (hfailed error herror).imp_left fun ⟨hstarted, hremoved, hstuck⟩ => ⟨hstarted, ?_, ?_⟩
  · rwa [← hfolders.removable_iff]
  · simpa only [← hfolders.removable_iff, ← Disk.readSource_eq_ok_congr hsource] using hstuck

/-- The output of a source is created: the source has the extension of one, the dump of its
tokens does not fail if it is asked for, the source can be opened, and there is a place for the
output. -/
structure Begun (workspace : Workspace) (source : String) (options : BuildOptions)
    (target : String) : Prop where
  isSource : Path.isSource source = true
  dumped : options.tokens = true → (outcome (dumpTokens source options) workspace).1.isOk = true
  opened : ∃ lines, workspace.disk.readSource source = .ok lines
  place : workspace.disk.Creatable target

/-- What compiling one file gives, and what its outputs are like afterwards. -/
structure FileOutcome (workspace : Workspace) (source : String) (options : BuildOptions)
    (result : Except Error String) (reached : Disk) : Prop where
  named : ∀ target, result = .ok target → outputPath source options ".vm" = .ok target
  compiled : ∀ target, outputPath source options ".vm" = .ok target →
    Compiled workspace.disk source target (Begun workspace source options target) result reached
  dump : options.tokens = true → ∀ error target, result = .error error →
    outputPath source options "T.xml" = .ok target →
    workspace.disk.Abandoned source target dumpOf reached ∨
      reached.at? target = workspace.disk.at? target ∨
      ∃ lines bytes, workspace.disk.readSource source = .ok lines ∧
        whole (dumpOf lines) = .ok bytes ∧
        reached.at? target = some (.file bytes.data.toList) ∧
        closingTag.toUTF8.data.toList <:+ bytes.data.toList

/-- Without a dump a compilation is one output. -/
theorem compile_plain (disk : Disk) {source target : String} {outDir : Option String}
    (hsource : Path.isSource source = true)
    (htarget : outputPath source { outDir } ".vm" = .ok target) :
    disk.compile source { outDir } = disk.produce source target codeOf := by
  simp only [Disk.compile, hsource, Bool.not_true, Bool.false_eq_true, if_false]
  exact Disk.output_eq htarget codeOf

section FileOutcome

variable {source : String} {options : BuildOptions}

/-- Commands that were made are where the commands of the source belong. -/
theorem named_of_output {disk : Disk} {target : String}
    (hok : (disk.output source options ".vm" codeOf).1 = .ok target) :
    outputPath source options ".vm" = .ok target := by
  unfold Disk.output andThen at hok
  cases htarget : outputPath source options ".vm" with
  | error error =>
    rw [htarget] at hok
    cases hok
  | ok path =>
    rw [htarget] at hok
    rw [Disk.eq_of_produce_ok hok]

/-- The compilation of a source, behind everything that may come in front of it. -/
theorem compiled_output {disk middle : Disk} {target : String} (hunlinked : disk.Unlinked)
    (hsource : Path.isSource source = true)
    (hframe : disk.Frame middle (disk.OutputAt source options "T.xml"))
    (htarget : outputPath source options ".vm" = .ok target) {begun : Prop}
    (hbegun : begun ↔ (∃ lines, disk.readSource source = .ok lines) ∧ disk.Creatable target) :
    Compiled disk source target begun (middle.output source options ".vm" codeOf).1
      (middle.output source options ".vm" codeOf).2 := by
  have hapart := middle.locate_output_ne hsource Path.ending_code htarget
  have hread : middle.at? source = disk.at? source := hframe.at?_eq fun location hlocate hdump =>
    hdump.isOutput.locate_ne Path.ending_dump hsource disk hlocate
  -- the dump is neither where the source is nor where the commands go
  have hother : ∀ location, disk.locate target = .ok location →
      ¬ disk.OutputAt source options "T.xml" location := fun location hlocate hdump =>
    hdump.isOutput.dump_ne_code (Disk.isOutput_of_locate Path.ending_code htarget hlocate) rfl
  rw [Disk.output_eq htarget]
  apply (compiled_produce (hframe.unlinked hunlinked) hapart).transport hframe.folders hread
    (hframe.at?_eq hother)
  rw [hbegun, hframe.creatable_iff hother]
  simp only [Disk.readSource_eq_ok_congr hread]

variable {workspace : Workspace}

/-- A path without the extension of a source: nothing happens. -/
theorem fileOutcome_not_source (hsource : Path.isSource source = false) (error : Error) :
    FileOutcome workspace source options (.error error) workspace.disk where
  named _ hok := by cases hok
  compiled _ _ := by
    refine .of_not_begun ?_ error rfl
    intro hbegun
    rw [hbegun.isSource] at hsource
    cases hsource
  dump _ _ _ _ _ := .inr (.inl rfl)

/-- A compilation without a dump in front. -/
theorem fileOutcome_plain (hunlinked : workspace.disk.Unlinked)
    (hsource : Path.isSource source = true) (htokens : options.tokens = false) :
    FileOutcome workspace source options (workspace.disk.output source options ".vm" codeOf).1
      (workspace.disk.output source options ".vm" codeOf).2 where
  named _ hok := named_of_output hok
  compiled target htarget := by
    apply compiled_output hunlinked hsource (.refl _ _) htarget
    constructor
    · intro hbegun
      exact ⟨hbegun.opened, hbegun.place⟩
    · rintro ⟨hopened, hplace⟩
      exact ⟨hsource, by simp [htokens], hopened, hplace⟩
  dump h := by
    rw [htokens] at h
    cases h

/-- Without a dump nothing is compiled. -/
theorem fileOutcome_undumped {error : Error} {middle : Disk} (hunlinked : workspace.disk.Unlinked)
    (hsource : Path.isSource source = true) (htokens : options.tokens = true)
    (hdump : workspace.disk.output source options "T.xml" dumpOf = (.error error, middle)) :
    FileOutcome workspace source options (.error error) middle where
  named _ hok := by cases hok
  compiled target htarget := by
    have hframe := Disk.output_frame hunlinked hsource options Path.ending_dump dumpOf
    rw [hdump] at hframe
    refine .of_not_begun ?_ error (hframe.at?_eq fun location hlocate hat => ?_)
    · intro hbegun
      have hok := hbegun.dumped htokens
      rw [outcome_dumpTokens, hdump] at hok
      cases hok
    · exact hat.isOutput.dump_ne_code (Disk.isOutput_of_locate Path.ending_code htarget hlocate) rfl
  dump _ _ target _ htarget := by
    have hapart := workspace.disk.locate_output_ne hsource Path.ending_dump htarget
    rw [Disk.output_eq htarget] at hdump
    rcases Disk.produce_target hunlinked hapart dumpOf with ⟨_, -, hleft⟩ | ⟨_, _, hok, -, -, -⟩
    · rw [hdump] at hleft
      exact hleft.imp And.right fun hsame => .inl hsame.2
    · rw [hdump] at hok
      cases hok

/-- Behind a dump, the dump stays whatever becomes of the compilation. -/
theorem fileOutcome_dumped {path : String} {middle : Disk} (hunlinked : workspace.disk.Unlinked)
    (hsource : Path.isSource source = true)
    (hdump : workspace.disk.output source options "T.xml" dumpOf = (.ok path, middle)) :
    FileOutcome workspace source options (middle.output source options ".vm" codeOf).1
      (middle.output source options ".vm" codeOf).2 := by
  have hframe := Disk.output_frame hunlinked hsource options Path.ending_dump dumpOf
  rw [hdump] at hframe
  have hmiddle := hframe.unlinked hunlinked
  refine ⟨fun target hok => named_of_output hok, fun target htarget => ?_,
    fun _ _ target _ htarget => ?_⟩
  · apply compiled_output hunlinked hsource hframe htarget
    constructor
    · intro hbegun
      exact ⟨hbegun.opened, hbegun.place⟩
    · rintro ⟨hopened, hplace⟩
      refine ⟨hsource, fun _ => ?_, hopened, hplace⟩
      rw [outcome_dumpTokens, hdump]
      rfl
  -- the dump was written before, and the output has another name
  · have hapart := workspace.disk.locate_output_ne hsource Path.ending_dump htarget
    have hcode := Disk.output_frame hmiddle hsource options Path.ending_code codeOf
    have hkept := hcode.at?_eq fun location hlocate hcode =>
      (Disk.isOutput_of_locate Path.ending_dump htarget hlocate).dump_ne_code hcode.isOutput rfl
    rw [Disk.output_eq htarget] at hdump
    rcases Disk.produce_target hunlinked hapart dumpOf with ⟨_, herror, -⟩ |
      ⟨lines, bytes, -, hread, hmake, hbytes⟩
    · rw [hdump] at herror
      cases herror
    · rw [hdump] at hbytes
      refine .inr (.inr ⟨lines, bytes, hread, hmake, ?_, closingTag_suffix hmake⟩)
      rw [hkept, hbytes]

/-- The three ways through a compilation, put together. -/
theorem fileOutcome_compile (workspace : Workspace) (hunlinked : workspace.disk.Unlinked)
    (source : String) (options : BuildOptions) :
    FileOutcome workspace source options (workspace.disk.compile source options).1
      (workspace.disk.compile source options).2 := by
  unfold Disk.compile
  cases hsource : Path.isSource source with
  | false => exact fileOutcome_not_source hsource _
  | true =>
    cases htokens : options.tokens with
    | false => exact fileOutcome_plain hunlinked hsource htokens
    | true =>
      dsimp only [andThen]
      rcases hdump : workspace.disk.output source options "T.xml" dumpOf with ⟨_ | _, middle⟩
      · exact fileOutcome_undumped hunlinked hsource htokens hdump
      · exact fileOutcome_dumped hunlinked hsource hdump

end FileOutcome

/-- A class without subroutines. -/
def bareTree : Syntax.ClassTree where
  name := "Main"
  declarations := []
  subroutines := []

/-- The class as it is written. -/
def bareSource : String := "class Main {}"

/-- It is compiled to no commands. -/
theorem compileText_bareSource : compileText bareSource = .ok "" := by
  have htokens : HasTokens bareSource bareTree.tokens := .of_pulled 5 (by decide +kernel)
  exact compileSource_of_yields bareTree (by decide) (Lexer.yields_iff_results.2 htokens)

/-- A class that is broken off. -/
def brokenSource : String := "class Broken { function }"

/-- A source that is compiled, and one that is not, next to what an earlier version of it was
compiled to. -/
def unitsDisk : Disk where
  entries := [(["Main.jack"], .file 0), (["Broken.jack"], .file 1), (["Broken.vm"], .file 2)]
  contents := fun number => (if number = 0 then bareSource else
    if number = 1 then brokenSource else "return\n").toUTF8.data.toList

/-- A source, and another name for it. -/
def linkedDisk (name : String) : Disk where
  entries := [(["Main.jack"], .file 0), ([name], .file 0)]
  contents := fun _ => bareSource.toUTF8.data.toList

end Build

end Jack
