/-
What a build touches.

One source has at most two outputs, and each has one place: in the directory for outputs, or next
to the source. Whatever becomes of a source, only these places change (`compile_frame`). A build
goes through its sources in order, so by induction it changes only places that belong to the
sources up to the one that fails (`compileAll_frame`, `exists_failing`). Making outputs neither
makes nor removes directories: every path leads to the same place throughout, and it does not
matter on which of the disks in between a place is looked up.

All of this is about disks without links. What is written through one name of a file is found
under its other names, too, wherever they are.
-/
import Jack.Proofs.FileBuild

set_option autoImplicit false

namespace Jack

/-! ## Runs over several sources -/

namespace Disk

variable {options : BuildOptions} {disk reached : Disk}

/-- Sources that were all compiled, cut in two. -/
theorem exists_of_compileAll_append {first second : List String} {targets : List String}
    (hok : compileAll options (first ++ second) disk = (.ok targets, reached)) :
    ∃ before middle after, compileAll options first disk = (.ok before, middle) ∧
      compileAll options second middle = (.ok after, reached) ∧ targets = before ++ after := by
  induction first generalizing disk targets with
  | nil => exact ⟨[], disk, targets, rfl, hok, rfl⟩
  | cons source rest ih =>
    obtain ⟨target, one, hcompile, hrest⟩ := Build.exists_of_andThen_ok hok
    obtain ⟨others, last, hothers, hlast⟩ := Build.exists_of_andThen_ok hrest
    cases hlast
    obtain ⟨before, middle, after, hbefore, hafter, rfl⟩ := ih hothers
    refine ⟨target :: before, middle, after, ?_, hafter, rfl⟩
    rw [compileAll, Build.andThen_ok hcompile, Build.andThen_ok hbefore]

/-- A run that fails does so at one of its sources. The sources before it are compiled, and those
behind it make no difference. -/
theorem exists_failing {sources : List String} {error : Error}
    (hfail : compileAll options sources disk = (.error error, reached)) :
    ∃ earlier source later targets middle, sources = earlier ++ source :: later ∧
      compileAll options earlier disk = (.ok targets, middle) ∧
      compileAll options (earlier ++ [source]) disk = (.error error, reached) := by
  induction sources generalizing disk with
  | nil => cases hfail
  | cons source rest ih =>
    rcases hcompile : disk.compile source options with ⟨_ | target, one⟩
    -- the first source fails itself, or one of those behind it does
    · rw [compileAll, Build.andThen_error hcompile] at hfail
      refine ⟨[], source, rest, [], disk, rfl, rfl, ?_⟩
      rw [List.nil_append, compileAll, Build.andThen_error hcompile]
      exact hfail
    · rw [compileAll, Build.andThen_ok hcompile] at hfail
      rcases hothers : compileAll options rest one with ⟨_ | others, last⟩
      · rw [Build.andThen_error hothers] at hfail
        cases hfail
        obtain ⟨earlier, failing, later, targets, middle, rfl, hearlier, hfailing⟩ := ih hothers
        refine ⟨source :: earlier, failing, later, target :: targets, middle, rfl, ?_, ?_⟩
        · rw [compileAll, Build.andThen_ok hcompile, Build.andThen_ok hearlier]
        · rw [List.cons_append, compileAll, Build.andThen_ok hcompile,
            Build.andThen_error hfailing]
      · rw [Build.andThen_ok hothers] at hfail
        cases hfail

end Disk

/-! ## What a build touches -/

namespace Disk

/-- A location belongs to a source: one of its outputs has its place there. -/
def Belongs (disk : Disk) (options : BuildOptions) (source : String) (location : Location) : Prop :=
  Path.isSource source = true ∧
    (disk.OutputAt source options ".vm" location ∨
      options.tokens = true ∧ disk.OutputAt source options "T.xml" location)

/-- Where outputs belong is a matter of directories. -/
theorem SameFolders.outputAt_iff {disk other : Disk} (h : disk.SameFolders other)
    {source ending : String} {options : BuildOptions} {location : Location} :
    other.OutputAt source options ending location ↔
      disk.OutputAt source options ending location := by
  have hfolder : ∀ parent, other.OutputFolder options source parent ↔
      disk.OutputFolder options source parent := by
    intro parent
    unfold OutputFolder
    split
    · exact h.folder_eq_ok_iff
    · simp only [h.locate_eq_ok_iff]
  unfold OutputAt
  simp only [hfolder]

/-- So what belongs to a source is the same on every disk of a build. -/
theorem SameFolders.belongs_iff {disk other : Disk} (h : disk.SameFolders other)
    {source : String} {options : BuildOptions} {location : Location} :
    other.Belongs options source location ↔ disk.Belongs options source location := by
  unfold Belongs
  rw [h.outputAt_iff, h.outputAt_iff]

/-- What belongs to a source has the name of an output. -/
theorem Belongs.exists_isOutput {disk : Disk} {options : BuildOptions} {source : String}
    {location : Location} (h : disk.Belongs options source location) :
    ∃ ending, Path.Ending ending ∧ IsOutput source ending location := by
  rcases h.2 with hcode | ⟨-, hdump⟩
  · exact ⟨".vm", Path.ending_code, hcode.isOutput⟩
  · exact ⟨"T.xml", Path.ending_dump, hdump.isOutput⟩

/-- Where only outputs are touched, a source holds what it held before. -/
theorem Frame.at?_source {disk reached : Disk} {options : BuildOptions}
    {touched : Location → Prop} (h : disk.Frame reached touched)
    (hbelongs : ∀ location, touched location → ∃ source, disk.Belongs options source location)
    {other : String} (hother : Path.isSource other = true) :
    reached.at? other = disk.at? other := by
  refine h.at?_eq fun location hlocate htouched => ?_
  obtain ⟨source, hsource⟩ := hbelongs location htouched
  obtain ⟨ending, hending, houtput⟩ := hsource.exists_isOutput
  exact houtput.locate_ne hending hother disk hlocate

/-- One source touches nothing but what belongs to it. The commands come behind the dump, on a disk
with the same directories, so both are told from the disk in front. -/
theorem compile_frame {disk : Disk} (hunlinked : disk.Unlinked) (source : String)
    (options : BuildOptions) :
    disk.Frame (disk.compile source options).2 (disk.Belongs options source) := by
  unfold compile
  cases hsource : Path.isSource source with
  | false => exact .refl disk _
  | true =>
    cases htokens : options.tokens with
    | false =>
      exact (output_frame hunlinked hsource options Path.ending_code Build.codeOf).mono
        fun location hlocation => ⟨hsource, .inl hlocation⟩
    | true =>
      have hdump : disk.Frame (disk.output source options "T.xml" Build.dumpOf).2
          (disk.Belongs options source) :=
        (output_frame hunlinked hsource options Path.ending_dump Build.dumpOf).mono
          fun location hlocation => ⟨hsource, .inr ⟨htokens, hlocation⟩⟩
      dsimp only [Build.andThen]
      -- a failed dump is all that happened; behind a complete one the output is in the same
      -- directories
      rcases hfirst : disk.output source options "T.xml" Build.dumpOf with ⟨_ | path, middle⟩
      · rw [hfirst] at hdump
        exact hdump
      · rw [hfirst] at hdump
        refine hdump.trans ?_
        refine (output_frame (hdump.unlinked hunlinked) hsource options Path.ending_code
          Build.codeOf).mono ?_
        intro location hlocation
        exact ⟨hsource, .inl (hdump.folders.outputAt_iff.1 hlocation)⟩

/-- Several sources touch nothing but what belongs to one of them, by induction on the sources: each
of them leaves the directories, and no links, to the next. -/
theorem compileAll_frame (options : BuildOptions) (sources : List String) {disk : Disk}
    (hunlinked : disk.Unlinked) :
    disk.Frame (compileAll options sources disk).2 fun location =>
      ∃ source ∈ sources, disk.Belongs options source location := by
  induction sources generalizing disk with
  | nil => exact .refl disk _
  | cons source rest ih =>
    have hfirst : disk.Frame (disk.compile source options).2 fun location =>
        ∃ other ∈ source :: rest, disk.Belongs options other location :=
      (compile_frame hunlinked source options).mono fun location hlocation =>
        ⟨source, List.mem_cons_self, hlocation⟩
    rcases hcompile : disk.compile source options with ⟨_ | target, middle⟩
    · rw [hcompile] at hfirst
      rw [compileAll, Build.andThen_error hcompile]
      exact hfirst
    · rw [hcompile] at hfirst
      have hrest : middle.Frame (compileAll options rest middle).2 fun location =>
          ∃ other ∈ source :: rest, disk.Belongs options other location := by
        refine (ih (hfirst.unlinked hunlinked)).mono ?_
        rintro location ⟨other, hmem, hlocation⟩
        exact ⟨other, List.mem_cons_of_mem _ hmem, hfirst.folders.belongs_iff.1 hlocation⟩
      rw [compileAll, Build.andThen_ok hcompile]
      rcases hothers : compileAll options rest middle with ⟨_ | others, last⟩
      · rw [Build.andThen_error hothers]
        rw [hothers] at hrest
        exact hfirst.trans hrest
      · rw [Build.andThen_ok hothers]
        rw [hothers] at hrest
        exact hfirst.trans hrest

end Disk

namespace Build

/-- What a build changes, and what it does not. -/
structure BuildFrame (workspace : Workspace) (path : String) (options : BuildOptions)
    (result : Except Error (List String)) (reached : Disk) : Prop where
  outputs : ∀ location, reached.node? location ≠ workspace.disk.node? location →
    ∃ source ∈ workspace.disk.sources path, workspace.disk.Belongs options source location
  sources : ∀ name parent, Path.isSource name = true →
    reached.node? (name :: parent) = workspace.disk.node? (name :: parent)
  directories : ∀ location, reached.node? location = some .directory ↔
    workspace.disk.node? location = some .directory
  stops : ∀ error, result = .error error → ∃ earlier source later,
    workspace.disk.sources path = earlier ++ source :: later ∧
    (outcome (compileFiles options earlier) workspace).1.isOk = true ∧
    outcome (compileFiles options (earlier ++ [source])) workspace = (.error error, reached) ∧
    ∀ location, reached.node? location ≠ workspace.disk.node? location →
      ∃ processed ∈ earlier ++ [source], workspace.disk.Belongs options processed location

/-- **Nothing but outputs.** On a disk without links a build changes no location but those of the
outputs of its sources. Sources and directories stay what they are, and where it fails, the outputs
of later sources stay what they are, too. -/
theorem compilePath_touches_only_outputs (workspace : Workspace)
    (hunlinked : workspace.disk.Unlinked) (path : String) (options : BuildOptions) :
    BuildFrame workspace path options (outcome (compilePath path options) workspace).1
      (outcome (compilePath path options) workspace).2 := by
  rw [outcome_compilePath]
  have hframe := Disk.compileAll_frame options (workspace.disk.sources path) hunlinked
  refine ⟨fun location hchanged => ?_, fun name parent hsource => ?_, hframe.folders.directory_iff,
    fun error herror => ?_⟩
  · exact hframe.touched_of_ne hchanged
  · apply hframe.kept
    rintro ⟨source, -, hlocation⟩
    obtain ⟨ending, hending, stem, _, hstem, hname⟩ := hlocation.exists_isOutput
    rw [(List.cons.inj hname).1, Path.isSource_output hstem hending] at hsource
    cases hsource
  · obtain ⟨earlier, source, later, targets, middle, hsplit, hearlier, hfailing⟩ :=
      Disk.exists_failing (Prod.ext herror rfl)
    have hstopped := Disk.compileAll_frame options (earlier ++ [source]) hunlinked
    rw [hfailing] at hstopped
    refine ⟨earlier, source, later, hsplit, ?_, ?_, fun location hchanged => ?_⟩
    · rw [outcome_compileFiles, hearlier]
      rfl
    · rw [outcome_compileFiles, hfailing]
    · exact hstopped.touched_of_ne hchanged

/-- The sources of a directory are there when it was compiled, and everything that is not what it
was belongs to one of them. -/
theorem compilePath_touches_only_outputs_units :
    ∃ result reached, outcome (compilePath "." {}) { disk := unitsDisk } = (result, reached) ∧
      reached.node? ["Main.jack"] = some (.file bareSource.toUTF8.data.toList) ∧
      reached.node? ["Broken.jack"] = some (.file brokenSource.toUTF8.data.toList) ∧
      ∀ location, reached.node? location ≠ unitsDisk.node? location →
        ∃ source ∈ unitsDisk.sources ".", unitsDisk.Belongs {} source location := by
  have hunlinked : unitsDisk.Unlinked := by decide
  have hframe := compilePath_touches_only_outputs { disk := unitsDisk } hunlinked "." {}
  exact ⟨_, _, rfl, hframe.sources "Main.jack" [] rfl, hframe.sources "Broken.jack" [] rfl,
    hframe.outputs⟩

end Build

end Jack
