/-
A token dump changes nothing about the compilation behind it.

A dump and a compilation read the same source in two ways: the dump goes through the lexer's items
to the end, and the compilation looks one token ahead and stops where the grammar does. They could
disagree about which sources have a fault. They do not where it counts: a source that is compiled
is that of a class tree, so the compilation has seen every token of it to the end and no fault on
the way (`exists_tokens_of_makes`), and then there is none for the dump either. A source that is
not compiled may well be dumped, but that is no matter, because the compilation behind the dump
fails as the one without does.

On the disk the two cannot get in each other's way: a dump has another name than any output of
commands and than any source. `Makes` is what a successful output rests on, and a dump in front
leaves it as it is (`Makes.behind_dump`).
-/
import Jack.Proofs.SharedStems
import Jack.Proofs.DumpDecoding

set_option autoImplicit false

namespace Jack

/-! ## What a successful output rests on -/

namespace Disk

variable {disk middle : Disk} {source target path : String} {options : BuildOptions}
  {make : Source → Except Error Unit × ByteArray} {bytes : ByteArray}

/-- These bytes can be made of a source, and there is a place for them. -/
structure Makes (disk : Disk) (source target : String)
    (make : Source → Except Error Unit × ByteArray) (bytes : ByteArray) : Prop where
  place : disk.Creatable target
  made : ∃ lines, disk.readSource source = .ok lines ∧ Build.whole (make lines) = .ok bytes

section Produce

variable (hunlinked : disk.Unlinked)
  (hapart : ∀ location, disk.locate source = .ok location → disk.locate target ≠ .ok location)

include hunlinked hapart

/-- An output that can be made is made. -/
theorem Makes.produce (h : disk.Makes source target make bytes) :
    (disk.produce source target make).1 = .ok target ∧
      (disk.produce source target make).2.at? target = some (.file bytes.data.toList) := by
  obtain ⟨hplace, lines, hread, hmake⟩ := h
  have hresult := produce_result hunlinked hapart make hread hplace
  rw [hmake] at hresult
  refine ⟨hresult, ?_⟩
  rcases produce_target hunlinked hapart make with ⟨error, herror, -⟩ |
    ⟨lines', bytes', -, hread', hmake', hat⟩
  · rw [hresult] at herror
    cases herror
  · rw [hread] at hread'
    cases hread'
    rw [hmake] at hmake'
    cases hmake'
    exact hat

/-- An output that was made could be made. -/
theorem exists_makes_of_produce (hok : (disk.produce source target make).1 = .ok path) :
    ∃ bytes, disk.Makes source target make bytes := by
  rcases produce_cases hunlinked hapart make with ⟨-, error, herror⟩ |
    ⟨lines, location, hread, hplace, -, -, hmade⟩
  · rw [herror] at hok
    cases hok
  · rcases hmade with ⟨error, reached, -, herror, -⟩ | ⟨bytes, reached, hmake, -, -⟩
    · rw [herror] at hok
      cases hok
    · exact ⟨bytes, hplace, lines, hread, hmake⟩

end Produce

/-- A dump in front takes away neither the source nor the place for the commands. -/
theorem Makes.behind_dump (hsource : Path.isSource source = true)
    (htarget : Build.outputPath source options ".vm" = .ok target)
    (hframe : disk.Frame middle (disk.OutputAt source options "T.xml")) :
    middle.Makes source target make bytes ↔ disk.Makes source target make bytes := by
  have hread : middle.at? source = disk.at? source := hframe.at?_eq fun location hlocate hdump =>
    hdump.isOutput.locate_ne Path.ending_dump hsource disk hlocate
  have hplace : middle.Creatable target ↔ disk.Creatable target :=
    hframe.creatable_iff fun location hlocate hdump =>
      hdump.isOutput.dump_ne_code (isOutput_of_locate Path.ending_code htarget hlocate) rfl
  constructor
  · rintro ⟨hcreatable, lines, hlines, hmake⟩
    exact ⟨hplace.1 hcreatable, lines, (readSource_eq_ok_congr hread).1 hlines, hmake⟩
  · rintro ⟨hcreatable, lines, hlines, hmake⟩
    exact ⟨hplace.2 hcreatable, lines, (readSource_eq_ok_congr hread).2 hlines, hmake⟩

end Disk

namespace Build

open Disk

variable {disk : Disk} {source target dump : String} {outDir : Option String} {bytes : ByteArray}

/-- The text of a whole dump. -/
def wholeDump (tokens : List Token) : String :=
  TokenDump.opening ++ (TokenDump.elements tokens ++ TokenDump.closing)

/-- A source that is compiled has tokens and no fault, so its dump can be made. -/
theorem exists_tokens_of_makes (h : disk.Makes source target codeOf bytes)
    (hplace : disk.Creatable dump) :
    ∃ text tokens, disk.at? source = some (.file text.toUTF8.data.toList) ∧
      HasTokens text tokens ∧ disk.Makes source dump dumpOf (wholeDump tokens).toUTF8 := by
  obtain ⟨-, lines, hread, hcode⟩ := h
  obtain ⟨text, output, hfile, hcompile, -⟩ := exists_text_of_codeOf hread hcode
  obtain ⟨tree, -, hyields, -⟩ := exists_tree_of_compileSource hcompile
  have htokens : HasTokens text tree.tokens := Lexer.yields_iff_results.1 hyields
  have hlines : lines = Source.ofText text := by
    rcases readSource_eq_ok_iff.1 hread with ⟨content, hcontent, rfl⟩ | ⟨hdirectory, -⟩
    · rw [hfile] at hcontent
      cases hcontent
      rfl
    · rw [hfile] at hdirectory
      cases hdirectory
  obtain ⟨sink, hdump, hholds⟩ := TokenDump.holds_ofSource htokens
  refine ⟨text, tree.tokens, hfile, htokens, hplace, lines, hread, ?_⟩
  rw [hlines, whole, dumpOf, hdump]
  exact congrArg Except.ok hholds.bytes

/-! ## With and without a dump -/

/-- A source has both outputs or none. -/
theorem exists_outputPath (hdump : outputPath source { outDir } "T.xml" = .ok dump) :
    ∃ target, outputPath source { outDir } ".vm" = .ok target := by
  unfold outputPath at hdump ⊢
  cases hstem : Path.stem? source with
  | none =>
    rw [hstem] at hdump
    cases hdump
  | some stem => exact ⟨_, rfl⟩

/-- With a dump a compilation is two outputs, and the second one is made on the disk behind the
first. -/
theorem compile_dumped (disk : Disk) (hsource : Path.isSource source = true)
    (htarget : outputPath source { outDir } ".vm" = .ok target)
    (hdump : outputPath source { outDir } "T.xml" = .ok dump) :
    disk.compile source { outDir, tokens := true } =
      andThen (fun disk => disk.produce source dump dumpOf)
        (fun _ middle => middle.produce source target codeOf) disk := by
  have hcode : ∀ middle : Disk, middle.output source { outDir, tokens := true } ".vm" codeOf =
      middle.produce source target codeOf := fun middle => output_eq htarget codeOf
  have hdumped : ∀ disk : Disk, disk.output source { outDir, tokens := true } "T.xml" dumpOf =
      disk.produce source dump dumpOf := fun disk => output_eq hdump dumpOf
  simp only [Disk.compile, hsource, Bool.not_true, Bool.false_eq_true, if_false, if_true, hcode,
    hdumped]

section Dumped

variable (hunlinked : disk.Unlinked) (hsource : Path.isSource source = true)

include hunlinked hsource

/-- A dump touches no location but its own. -/
theorem frame_dump (hdump : outputPath source { outDir } "T.xml" = .ok dump) :
    disk.Frame (disk.produce source dump dumpOf).2 (disk.OutputAt source { outDir } "T.xml") := by
  rw [← output_eq hdump]
  exact output_frame hunlinked hsource { outDir } Path.ending_dump dumpOf

/-- A compilation that succeeds behind a dump could be done without. -/
theorem exists_makes_of_dumped
    (htarget : outputPath source { outDir } ".vm" = .ok target)
    (hdump : outputPath source { outDir } "T.xml" = .ok dump)
    (hok : (disk.compile source { outDir, tokens := true }).1.isOk = true) :
    ∃ bytes, disk.Makes source target codeOf bytes := by
  rw [compile_dumped disk hsource htarget hdump, andThen] at hok
  have hframe := frame_dump hunlinked hsource hdump
  rcases hproduce : disk.produce source dump dumpOf with ⟨_ | path, middle⟩
  · rw [hproduce] at hok
    cases hok
  · rw [hproduce] at hok hframe
    dsimp only at hok
    cases hcode : (middle.produce source target codeOf).1 with
    | error error =>
      rw [hcode] at hok
      cases hok
    | ok made =>
      obtain ⟨bytes, hmakes⟩ := exists_makes_of_produce (hframe.unlinked hunlinked)
        (middle.locate_output_ne hsource Path.ending_code htarget) hcode
      exact ⟨bytes, (Makes.behind_dump hsource htarget hframe).1 hmakes⟩

/-- Where the commands of a source can be made and there is a place for the dump, both are made. -/
theorem compile_dumped_of_makes
    (htarget : outputPath source { outDir } ".vm" = .ok target)
    (hdump : outputPath source { outDir } "T.xml" = .ok dump) (hplace : disk.Creatable dump)
    (h : disk.Makes source target codeOf bytes) :
    ∃ text tokens reached,
      disk.compile source { outDir, tokens := true } = (.ok target, reached) ∧
      reached.at? target = some (.file bytes.data.toList) ∧
      disk.at? source = some (.file text.toUTF8.data.toList) ∧ HasTokens text tokens ∧
      reached.at? dump = some (.file (wholeDump tokens).toUTF8.data.toList) := by
  obtain ⟨text, tokens, hfile, htokens, hmakes⟩ := exists_tokens_of_makes h hplace
  obtain ⟨hdumped, hshown⟩ :=
    hmakes.produce hunlinked (disk.locate_output_ne hsource Path.ending_dump hdump)
  have hframe := frame_dump hunlinked hsource hdump
  have hrun := compile_dumped disk hsource htarget hdump
  rcases hproduce : disk.produce source dump dumpOf with ⟨result, middle⟩
  rw [hproduce] at hdumped hshown hframe
  obtain rfl : result = .ok dump := hdumped
  rw [andThen, hproduce] at hrun
  have hmiddle := hframe.unlinked hunlinked
  obtain ⟨hcode, hmade⟩ := ((Makes.behind_dump hsource htarget hframe).2 h).produce hmiddle
    (middle.locate_output_ne hsource Path.ending_code htarget)
  refine ⟨text, tokens, (middle.produce source target codeOf).2, ?_, hmade, hfile, htokens, ?_⟩
  · rw [hrun, ← hcode]
  · -- the commands are written elsewhere, so the dump is still there
    have hkept := output_frame hmiddle hsource { outDir } Path.ending_code codeOf
    rw [output_eq htarget] at hkept
    rw [hkept.at?_eq fun location hlocate hat =>
      (isOutput_of_locate Path.ending_dump hdump hlocate).dump_ne_code hat.isOutput rfl]
    exact hshown

omit hsource in
/-- A dump that fails leaves what is found in the place of the commands. -/
theorem compile_undumped {error : Error}
    (hfailed : (disk.output source { outDir, tokens := true } "T.xml" dumpOf).1 = .error error) :
    (disk.compile source { outDir, tokens := true }).1.isOk = false ∧
      ∀ target, outputPath source { outDir } ".vm" = .ok target →
        (disk.compile source { outDir, tokens := true }).2.at? target = disk.at? target := by
  cases hsource : Path.isSource source with
  | false => simp [Disk.compile, hsource, Except.isOk, Except.toBool]
  | true =>
    have hframe := output_frame hunlinked hsource { outDir, tokens := true } Path.ending_dump dumpOf
    have hrun : disk.compile source { outDir, tokens := true } =
        (.error error, (disk.output source { outDir, tokens := true } "T.xml" dumpOf).2) := by
      simp only [Disk.compile, hsource, Bool.not_true, Bool.false_eq_true, if_false, if_true,
        andThen]
      rcases hproduce : disk.output source { outDir, tokens := true } "T.xml" dumpOf with ⟨_, _⟩
      rw [hproduce] at hfailed
      cases hfailed
      rfl
    rw [hrun]
    refine ⟨rfl, fun target htarget => hframe.at?_eq fun location hlocate hat => ?_⟩
    exact hat.isOutput.dump_ne_code (isOutput_of_locate Path.ending_code htarget hlocate) rfl

end Dumped

/-- **A dump changes nothing else.** On a disk without links, where there is a place for the dump,
a compilation behind a dump succeeds exactly when the one without does. If they succeed they give
the same path with the same content, and the dump is one of all tokens of the source. Where the
dump fails, the compilation fails, and its output is what it was before. -/
theorem compileFile_with_dump (workspace : Workspace) (hunlinked : workspace.disk.Unlinked)
    (source : String) (outDir : Option String) :
    let plain := outcome (compileFile source { outDir }) workspace
    let dumped := outcome (compileFile source { outDir, tokens := true }) workspace
    (∀ dump, outputPath source { outDir } "T.xml" = .ok dump → workspace.disk.Creatable dump →
      (dumped.1.isOk = true ↔ plain.1.isOk = true) ∧
      ∀ target target', plain.1 = .ok target → dumped.1 = .ok target' → target' = target ∧
        (∃ content, plain.2.at? target = some (.file content) ∧
          dumped.2.at? target = some (.file content)) ∧
        ∃ text tokens, workspace.disk.at? source = some (.file text.toUTF8.data.toList) ∧
          HasTokens text tokens ∧
          dumped.2.at? dump = some (.file (wholeDump tokens).toUTF8.data.toList)) ∧
    ∀ error, (outcome (dumpTokens source { outDir, tokens := true }) workspace).1 = .error error →
      dumped.1.isOk = false ∧ ∀ target, outputPath source { outDir } ".vm" = .ok target →
        dumped.2.at? target = workspace.disk.at? target := by
  intro plain dumped
  have hplain : plain = workspace.disk.compile source { outDir } := outcome_compileFile _ _ _
  have hdumped : dumped = workspace.disk.compile source { outDir, tokens := true } :=
    outcome_compileFile _ _ _
  rw [hplain, hdumped, outcome_dumpTokens]
  refine ⟨fun dump hdump hplace => ?_, fun error => compile_undumped hunlinked⟩
  obtain ⟨code, hcode⟩ := exists_outputPath hdump
  cases hsource : Path.isSource source with
  | false => simp [Disk.compile, hsource]
  | true =>
    rw [compile_plain workspace.disk hsource hcode]
    have hapart := workspace.disk.locate_output_ne hsource Path.ending_code hcode
    -- if the dumped run succeeds, so does the plain one, and the other way round
    refine ⟨⟨fun hok => ?_, fun hok => ?_⟩, fun target target' hok hok' => ?_⟩
    · obtain ⟨bytes, hmakes⟩ := exists_makes_of_dumped hunlinked hsource hcode hdump hok
      rw [(hmakes.produce hunlinked hapart).1]
      rfl
    · cases hresult : (workspace.disk.produce source code codeOf).1 with
      | error error =>
        rw [hresult] at hok
        cases hok
      | ok path =>
        obtain ⟨bytes, hmakes⟩ := exists_makes_of_produce hunlinked hapart hresult
        obtain ⟨-, -, reached, hrun, -⟩ :=
          compile_dumped_of_makes hunlinked hsource hcode hdump hplace hmakes
        rw [hrun]
        rfl
    -- both runs make the same bytes of the same source
    · obtain ⟨bytes, hmakes⟩ := exists_makes_of_produce hunlinked hapart hok
      obtain ⟨hresult, hcontent⟩ := hmakes.produce hunlinked hapart
      obtain ⟨text, tokens, reached, hrun, hsame, hfile, htokens, hshown⟩ :=
        compile_dumped_of_makes hunlinked hsource hcode hdump hplace hmakes
      rw [hresult] at hok
      rw [hrun] at hok' ⊢
      cases hok
      cases hok'
      exact ⟨rfl, ⟨_, hcontent, hsame⟩, text, tokens, hfile, htokens, hshown⟩

/-- A source that is not lexed to its end, next to what an earlier version of it was compiled to. -/
def faultyDisk : Disk where
  entries := [(["Main.jack"], .file 0), (["Main.vm"], .file 1)]
  contents := fun number => (if number = 0 then "\"" else "return\n").toUTF8.data.toList

/-- What the source with a subroutine is compiled to can be made. -/
theorem makes_sharingDisk :
    sharingDisk.Makes "d/Main.jack" "d/Main.vm" codeOf
      "function Main.main 0\npush constant 0\nreturn\n".toUTF8 := by
  have hread : sharingDisk.readSource "d/Main.jack" = .ok (Source.ofText mainSource) := rfl
  have hfile : sharingDisk.at? "d/Main.jack" = some (.file mainSource.toUTF8.data.toList) := rfl
  refine ⟨⟨["Main.vm", "d"], rfl, by decide, by decide⟩, _, hread, ?_⟩
  rw [codeOf_of_text hread hfile, compileText_mainSource]
  rfl

theorem unlinked_faultyDisk : faultyDisk.Unlinked := by decide

/-- The dump of the faulty source ends at its fault. -/
theorem dumpTokens_faultyDisk :
    (outcome (dumpTokens "Main.jack" { tokens := true }) { disk := faultyDisk }).1 =
      .error (.unterminatedString 1) := by
  have hplace : faultyDisk.Creatable "MainT.xml" := ⟨["MainT.xml"], rfl, by decide, by decide⟩
  have hread : faultyDisk.readSource "Main.jack" = .ok (Source.ofText "\"") := rfl
  have htarget : outputPath "Main.jack" { tokens := true } "T.xml" = .ok "MainT.xml" := rfl
  have hapart := faultyDisk.locate_output_ne rfl Path.ending_dump htarget
  have hresults : Lexer.results (Lexer.ofText "\"") =
      ([] : List Token).map .ok ++ [.error (.unterminatedString 1)] := by
    rw [Lexer.ofText, Lexer.results_eq_pending (Lexer.aligned_start _)]
    rfl
  obtain ⟨sink, hdump, -⟩ := TokenDump.ofSource_of_error hresults
  rw [outcome_dumpTokens, output_eq htarget,
    produce_result unlinked_faultyDisk hapart dumpOf hread hplace, whole, dumpOf, hdump]
  rfl

/-- A source that is compiled, with its dump, and one of which there is neither. -/
theorem compileFile_with_dump_main_faulty :
    (∃ content tokens plain dumped,
      outcome (compileFile "d/Main.jack" {}) { disk := sharingDisk } = (.ok "d/Main.vm", plain) ∧
      outcome (compileFile "d/Main.jack" { tokens := true }) { disk := sharingDisk } =
        (.ok "d/Main.vm", dumped) ∧
      plain.at? "d/Main.vm" = some (.file content) ∧
      dumped.at? "d/Main.vm" = some (.file content) ∧
      dumped.at? "d/MainT.xml" = some (.file (wholeDump tokens).toUTF8.data.toList)) ∧
    ∃ error reached,
      outcome (compileFile "Main.jack" { tokens := true }) { disk := faultyDisk } =
        (.error error, reached) ∧
      reached.at? "Main.vm" = some (.file "return\n".toUTF8.data.toList) := by
  constructor
  · have hcode : outputPath "d/Main.jack" {} ".vm" = .ok "d/Main.vm" := rfl
    have hapart := sharingDisk.locate_output_ne rfl Path.ending_code hcode
    have hresult : (outcome (compileFile "d/Main.jack" {}) { disk := sharingDisk }).1 =
        .ok "d/Main.vm" := by
      rw [outcome_compileFile, compile_plain sharingDisk rfl hcode]
      exact (makes_sharingDisk.produce unlinked_sharingDisk hapart).1
    obtain ⟨hiff, hboth⟩ := (compileFile_with_dump { disk := sharingDisk } unlinked_sharingDisk
      "d/Main.jack" none).1 "d/MainT.xml" rfl ⟨["MainT.xml", "d"], rfl, by decide, by decide⟩
    rcases hplain : outcome (compileFile "d/Main.jack" {}) { disk := sharingDisk } with ⟨_, plain⟩
    rcases hdumped : outcome (compileFile "d/Main.jack" { tokens := true })
      { disk := sharingDisk } with ⟨_ | target, dumped⟩
    -- the plain run succeeds, so the dumped one does; that it fails contradicts this
    all_goals
      rw [hplain] at hresult hiff hboth
      rw [hdumped] at hiff hboth
      obtain rfl := hresult
    · cases hiff.2 rfl
    · obtain ⟨rfl, ⟨content, hcode, hsame⟩, -, tokens, -, -, hshown⟩ := hboth _ _ rfl rfl
      exact ⟨content, tokens, plain, dumped, rfl, rfl, hcode, hsame, hshown⟩
  -- a source that does not lex has no dump, and its old output stays
  · obtain ⟨hfailed, hkept⟩ := (compileFile_with_dump { disk := faultyDisk } unlinked_faultyDisk
      "Main.jack" none).2 _ dumpTokens_faultyDisk
    rcases hdumped : outcome (compileFile "Main.jack" { tokens := true })
      { disk := faultyDisk } with ⟨error | _, reached⟩
    all_goals rw [hdumped] at hfailed hkept
    · exact ⟨error, reached, rfl, hkept "Main.vm" rfl⟩
    · cases hfailed

/-! ### A dump that takes the place of its source -/

/-- The dump of nothing is a whole dump without tokens. -/
theorem dumpOf_nothing : dumpOf [] = (.ok (), (wholeDump []).toUTF8) := by
  have htokens : HasTokens "" [] := .of_pulled 1 (by decide +kernel)
  have hlines : Source.ofText "" = [] := rfl
  obtain ⟨sink, hdump, hholds⟩ := TokenDump.holds_ofSource htokens
  rw [hlines] at hdump
  rw [dumpOf, hdump, hholds.bytes]
  rfl

/-- The dump of nothing is no class. -/
theorem exists_error_wholeDump :
    ∃ error, (codeOf (Source.ofText (wholeDump []))).1 = .error error := by
  have hfails : (codeOf (Source.ofText (wholeDump []))).1.isOk = false := by decide +kernel
  cases hcode : (codeOf (Source.ofText (wholeDump []))).1 with
  | error error => exact ⟨error, rfl⟩
  | ok _ =>
    rw [hcode] at hfails
    cases hfails

/-- The commands are a new file, whatever the source holds by then. -/
theorem exists_produce_linkedDisk (content : List UInt8) :
    ∃ created : Disk, ((linkedDisk "MainT.xml").fill 0 content).produce "Main.jack" "Main.vm"
      codeOf = created.complete "Main.vm" 1 (codeOf (Source.ofBytes content)) := by
  have hopen : ((linkedDisk "MainT.xml").fill 0 content).openSource "Main.jack" =
      .ok (.file 0) := rfl
  have hcreate : ((linkedDisk "MainT.xml").fill 0 content).create "Main.vm" =
      .ok (1, (((linkedDisk "MainT.xml").fill 0 content).put ["Main.vm"] (.file 1)).fill 1 []) :=
    rfl
  exact ⟨_, produce_eq hopen hcreate codeOf⟩

/-- **A dump that does change something.** If it is another name for the source, the dump takes
the place of the source, and the compilation behind it finds no class. -/
theorem compileFile_with_dump_loses_source :
    (linkedDisk "MainT.xml").Creatable "MainT.xml" ∧
    (∃ reached, outcome (compileFile "Main.jack" {}) { disk := linkedDisk "MainT.xml" } =
      (.ok "Main.vm", reached)) ∧
    ∃ error reached, outcome (compileFile "Main.jack" { tokens := true })
      { disk := linkedDisk "MainT.xml" } = (.error error, reached) := by
  have hcode : outputPath "Main.jack" {} ".vm" = .ok "Main.vm" := rfl
  have hdump : outputPath "Main.jack" {} "T.xml" = .ok "MainT.xml" := rfl
  refine ⟨⟨["MainT.xml"], rfl, by decide, by decide⟩, ?_, ?_⟩
  · have hsame : linkedDisk "MainT.xml" =
        (linkedDisk "MainT.xml").fill 0 bareSource.toUTF8.data.toList := by
      simp [linkedDisk, Disk.fill]
    have hok : (codeOf (Source.ofBytes bareSource.toUTF8.data.toList)).1 = .ok () :=
      codeOf_eq_ok_iff.2 ⟨"", compileText_bareSource⟩
    obtain ⟨created, hproduce⟩ := exists_produce_linkedDisk bareSource.toUTF8.data.toList
    rw [← hsame] at hproduce
    rw [outcome_compileFile, compile_plain _ rfl hcode, hproduce, complete, hok]
    exact ⟨_, rfl⟩
  · have hsource : (linkedDisk "MainT.xml").locate "Main.jack" = .ok ["Main.jack"] := rfl
    have htarget : (linkedDisk "MainT.xml").locate "MainT.xml" = .ok ["MainT.xml"] := rfl
    -- creating the dump empties the source, so the dump of nothing is written, and that is compiled
    obtain ⟨error, herror⟩ := exists_error_wholeDump
    rw [Source.ofText] at herror
    obtain ⟨created, hproduce⟩ := exists_produce_linkedDisk (wholeDump []).toUTF8.data.toList
    rw [outcome_compileFile, compile_dumped _ rfl hcode hdump, andThen,
      produce_of_link hsource rfl htarget rfl, complete, dumpOf_nothing]
    dsimp only
    rw [fill_fill, hproduce, complete, herror]
    exact ⟨error, _, rfl⟩

end Build

end Jack
