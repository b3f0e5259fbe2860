/-
Which sources inside a directory have an output of their own.

A build of a directory takes every file inside that has the extension of a source, and the case of
the extension does not matter. An output has the stem of its source, without the extension: two
sources whose names differ in the case of the extension have one output between them. The build
goes through the names in order. What a source is compiled to stays if no later source has the same
stem (`compileAll_last`), so an output holds what the last source with its stem is compiled to
(`exists_last_of_compileAll`), and what became of the others is lost.

The sources that are compiled are those that their paths lead to. A name on a disk can be put
behind the path of the directory, but the path may get too long for anything to be found there
(`mem_unitNames_iff`).
-/
import Jack.Proofs.DirectoryBuild

set_option autoImplicit false

namespace Jack

/-! ## What is inside a directory -/

namespace Disk

/-- What a name on a disk is like. -/
structure FileName (name : String) : Prop where
  proper : Path.Proper name.toList
  noNul : '\x00' ∉ name.toList
  short : name.utf8ByteSize ≤ maxNameBytes

/-- A disk with one entry for each location, names that can be used in paths, and no links. -/
structure Sound (disk : Disk) : Prop where
  nodup : (disk.entries.map Prod.fst).Nodup
  named : ∀ entry ∈ disk.entries, ∀ name ∈ entry.1, FileName name
  unlinked : disk.Unlinked

/-- What is inside a directory has the directory behind its name. -/
theorem nameInside?_eq_some_iff {directory location : Location} {name : String} :
    nameInside? directory location = some name ↔ location = name :: directory := by
  cases location with
  | nil => simp [nameInside?]
  | cons head parent => simp [nameInside?, and_comm]

/-- A file that is found is one of the entries. -/
theorem exists_mem_of_node? {disk : Disk} {location : Location} {content : List UInt8}
    (hnode : disk.node? location = some (.file content)) :
    ∃ number, (location, .file number) ∈ disk.entries := by
  obtain ⟨entry, hholds, hentry⟩ := Option.map_eq_some_iff.1 hnode
  cases entry with
  | file number => exact ⟨number, mem_of_holds? hholds⟩
  | directory => cases hentry

/-- A regular file is what has a content. -/
theorem isFile_iff {disk : Disk} {path : String} :
    disk.isFile path = true ↔ ∃ content, disk.at? path = some (.file content) := by
  unfold isFile at?
  cases disk.find path with
  | error cause => simp [Except.toOption]
  | ok found =>
    obtain ⟨location, entry⟩ := found
    cases entry <;> simp [Except.toOption, node]

section Inside

variable {disk : Disk} {path : String} {location : Location}

/-- A path that leads somewhere leads there as a directory for names, too. -/
theorem folder_of_locate (hlocate : disk.locate path = .ok location) :
    disk.folder path = .ok location := by
  rw [folder, if_neg, hlocate]
  rintro rfl
  cases hlocate

/-- A name behind the path of a directory leads to what has the name inside, unless the path gets
too long. -/
theorem at?_join (hlocate : disk.locate path = .ok location)
    (hdirectory : disk.node? location = some .directory) {name : String} (hname : FileName name)
    {node : Node} :
    disk.at? (Path.join path name) = some node ↔
      (Path.join path name).utf8ByteSize ≤ maxPathBytes ∧
        disk.node? (name :: location) = some node := by
  have hfolder := folder_of_locate hlocate
  by_cases hsize : (Path.join path name).utf8ByteSize ≤ maxPathBytes
  · have hjoin : disk.locate (Path.join path name) = .ok (name :: location) :=
      (locate_join_eq_ok_iff hname.proper).2
        ⟨hsize, hname.noNul, hname.short, location, hfolder, hdirectory, rfl⟩
    rw [at?_of_locate hjoin]
    exact (and_iff_right hsize).symm
  · cases hjoin : disk.locate (Path.join path name) with
    | ok found => exact absurd ((locate_join_eq_ok_iff hname.proper).1 hjoin).1 hsize
    | error cause =>
      rw [at?_of_error hjoin]
      exact iff_of_false nofun fun h => hsize h.1

/-- Listing a directory gives the names of the entries inside, in the order of the disk. -/
theorem entryNames_eq (hlocate : disk.locate path = .ok location)
    (hdirectory : disk.node? location = some .directory) :
    disk.entryNames path =
      .ok ((disk.entries.map Prod.fst).filterMap (nameInside? location)) := by
  rw [entryNames, find_of_locate hlocate (node?_eq_directory_iff.1 hdirectory),
    List.filterMap_map]
  rfl

/-- The names that are compiled, in order. -/
def unitNames (disk : Disk) (path : String) (location : Location) : List String :=
  (((disk.entries.map Prod.fst).filterMap (nameInside? location)).mergeSort
    fun a b => decide (a ≤ b)).filter fun name =>
      disk.isFile (Path.join path name) && Path.isSource (Path.join path name)

/-- The sources of a directory are the names inside that are compiled, each behind the path of the
directory. -/
theorem sources_eq (hlocate : disk.locate path = .ok location)
    (hdirectory : disk.node? location = some .directory) :
    disk.sources path = (disk.unitNames path location).map (Path.join path) := by
  rw [sources, entryNames_eq hlocate hdirectory]
  dsimp only [select, unitNames]
  rw [List.filter_map]
  rfl

/-- A name that is compiled is one on the disk. -/
theorem fileName_of_mem_unitNames (hsound : disk.Sound) {name : String}
    (hmem : name ∈ disk.unitNames path location) : FileName name := by
  have hentry := (List.mergeSort_perm _ _).mem_iff.1 (List.mem_filter.1 hmem).1
  obtain ⟨found, hfound, hname⟩ := List.mem_filterMap.1 hentry
  obtain ⟨entry, hentry, rfl⟩ := List.mem_map.1 hfound
  apply hsound.named entry hentry
  rw [nameInside?_eq_some_iff.1 hname]
  exact List.mem_cons_self

/-- Names are sorted by their code points, and that order is a total one. -/
theorem pairwise_sorted (names : List String) :
    (names.mergeSort fun a b => decide (a ≤ b)).Pairwise (· ≤ ·) := by
  refine (List.pairwise_mergeSort ?_ ?_ names).imp of_decide_eq_true
  · intro a b c hab hbc
    exact decide_eq_true (String.le_trans (of_decide_eq_true hab) (of_decide_eq_true hbc))
  · intro a b
    simpa using String.le_total a b

/-- Every name is compiled once, and the names are in order. -/
theorem pairwise_unitNames (hsound : disk.Sound) :
    (disk.unitNames path location).Pairwise (· < ·) := by
  have hnodup : ((disk.entries.map Prod.fst).filterMap (nameInside? location)).Nodup := by
    refine List.Pairwise.filterMap _ ?_ hsound.nodup
    rintro first second hne name hname name' hname' rfl
    exact hne ((nameInside?_eq_some_iff.1 hname).trans (nameInside?_eq_some_iff.1 hname').symm)
  have hne := ((List.mergeSort_perm _ fun a b : String => decide (a ≤ b)).nodup_iff).2 hnodup
  exact ((pairwise_sorted _).imp₂ (fun a b hle hne => Std.lt_of_le_of_ne hle hne) hne).filter _

/-- A name is compiled exactly if it is that of a source that its path leads to. -/
theorem mem_unitNames_iff (hsound : disk.Sound) (hlocate : disk.locate path = .ok location)
    (hdirectory : disk.node? location = some .directory) {name : String} :
    name ∈ disk.unitNames path location ↔
      (∃ content, disk.node? (name :: location) = some (.file content)) ∧
        Path.isSource name = true ∧ (Path.join path name).utf8ByteSize ≤ maxPathBytes := by
  constructor
  · intro hmem
    have hname := fileName_of_mem_unitNames hsound hmem
    have hunit := (List.mem_filter.1 hmem).2
    rw [Bool.and_eq_true, isFile_iff, Path.isSource_join hname.proper] at hunit
    obtain ⟨⟨content, hat⟩, hsource⟩ := hunit
    obtain ⟨hsize, hnode⟩ := (at?_join hlocate hdirectory hname).1 hat
    exact ⟨⟨content, hnode⟩, hsource, hsize⟩
  · rintro ⟨⟨content, hnode⟩, hsource, hsize⟩
    obtain ⟨number, hentry⟩ := exists_mem_of_node? hnode
    have hname : FileName name := hsound.named _ hentry name List.mem_cons_self
    refine List.mem_filter.2 ⟨(List.mergeSort_perm _ _).mem_iff.2 ?_, ?_⟩
    · exact List.mem_filterMap.2 ⟨_, List.mem_map_of_mem hentry, nameInside?_eq_some_iff.2 rfl⟩
    · rw [Bool.and_eq_true, isFile_iff, Path.isSource_join hname.proper]
      exact ⟨⟨content, (at?_join hlocate hdirectory hname).2 ⟨hsize, hnode⟩⟩, hsource⟩

end Inside

/-! ## The last source with a stem -/

/-- A source that was compiled was compiled to the path of its output, with or without a dump in
front. -/
theorem outputPath_of_compile {disk reached : Disk} {source target : String}
    {options : BuildOptions} (hok : disk.compile source options = (.ok target, reached)) :
    Build.outputPath source options ".vm" = .ok target := by
  unfold compile at hok
  split at hok
  · cases hok
  · split at hok
    · obtain ⟨_, middle, -, hcode⟩ := Build.exists_of_andThen_ok hok
      exact Build.named_of_output (congrArg Prod.fst hcode)
    · exact Build.named_of_output (congrArg Prod.fst hok)

/-- A source that was compiled is a text, and its output holds what the text is compiled to in
memory. -/
theorem compile_ok {disk reached : Disk} {source target : String} {options : BuildOptions}
    (hunlinked : disk.Unlinked) (hok : disk.compile source options = (.ok target, reached)) :
    Build.outputPath source options ".vm" = .ok target ∧
      ∃ text output, disk.at? source = some (.file text.toUTF8.data.toList) ∧
        compileText text = .ok output ∧
        reached.at? target = some (.file output.toUTF8.data.toList) := by
  have houtcome := Build.fileOutcome_compile { disk } hunlinked source options
  rw [hok] at houtcome
  have htarget := houtcome.named target rfl
  exact ⟨htarget, ((houtcome.compiled target htarget).done target rfl).2⟩

/-- Sources that were compiled were compiled to the paths of their outputs, in order. -/
theorem outputPaths_of_compileAll {options : BuildOptions} {sources targets : List String}
    {disk reached : Disk} (hok : compileAll options sources disk = (.ok targets, reached)) :
    sources.map (Build.outputPath · options ".vm") = targets.map .ok := by
  induction sources generalizing disk targets with
  | nil =>
    cases hok
    rfl
  | cons source rest ih =>
    obtain ⟨target, middle, hcompile, hrest⟩ := Build.exists_of_andThen_ok hok
    obtain ⟨others, last, hothers, hlast⟩ := Build.exists_of_andThen_ok hrest
    cases hlast
    rw [List.map_cons, List.map_cons, ih hothers, outputPath_of_compile hcompile]

/-- What belongs to a source with another stem is not where the commands of a source are. -/
theorem Belongs.stem_eq {disk : Disk} {options : BuildOptions} {source other : String}
    {location : Location} (hother : disk.Belongs options other location)
    (hsource : IsOutput source ".vm" location) : Path.stem? other = Path.stem? source := by
  rcases hother.2 with hcode | ⟨-, hdump⟩
  · obtain ⟨stem, parent, hstem, hlocation⟩ := hsource
    obtain ⟨stem', parent', hstem', hlocation'⟩ := hcode.isOutput
    rw [hlocation] at hlocation'
    have hnames := congrArg String.toList (List.cons.inj hlocation').1
    rw [String.toList_append, String.toList_append, List.append_cancel_right_eq,
      String.toList_inj] at hnames
    rw [hstem, hstem', hnames]
  · exact absurd rfl (hdump.isOutput.dump_ne_code hsource)

section Steps

variable {options : BuildOptions} {earlier later targets : List String} {source : String}
  {disk reached : Disk} (hunlinked : disk.Unlinked)
  (hok : compileAll options (earlier ++ source :: later) disk = (.ok targets, reached))

include hunlinked hok

/-- The step of a run at one of its sources. There are no links on the disks around it. -/
theorem exists_step_of_compileAll :
    ∃ before middle target made others, compileAll options earlier disk = (.ok before, middle) ∧
      middle.Unlinked ∧ middle.compile source options = (.ok target, made) ∧ made.Unlinked ∧
      compileAll options later made = (.ok others, reached) ∧
      targets[earlier.length]? = some target := by
  obtain ⟨before, middle, after, hbefore, hafter, rfl⟩ := exists_of_compileAll_append hok
  obtain ⟨target, made, hcompile, hrest⟩ := Build.exists_of_andThen_ok hafter
  obtain ⟨others, last, hothers, hend⟩ := Build.exists_of_andThen_ok hrest
  cases hend
  have hlength : before.length = earlier.length := by
    simpa using (congrArg List.length (outputPaths_of_compileAll hbefore)).symm
  have hmiddle : middle.Unlinked := by
    have hframe := compileAll_frame options earlier hunlinked
    rw [hbefore] at hframe
    exact hframe.unlinked hunlinked
  have hmade : made.Unlinked := by
    have hframe := compile_frame hmiddle source options
    rw [hcompile] at hframe
    exact hframe.unlinked hmiddle
  refine ⟨before, middle, target, made, others, hbefore, hmiddle, hcompile, hmade, hothers, ?_⟩
  rw [← hlength, List.getElem?_append_right (Nat.le_refl _), Nat.sub_self]
  rfl

/-- The path of an output leads to the place of the output. -/
theorem exists_outputAt_of_compileAll :
    ∃ target location, targets[earlier.length]? = some target ∧
      reached.locate target = .ok location ∧ reached.OutputAt source options ".vm" location := by
  obtain ⟨before, middle, target, made, others, -, hmiddle, hcompile, hunlinked', hothers,
    hindex⟩ := exists_step_of_compileAll hunlinked hok
  obtain ⟨htarget, text, output, hread, -, hmade⟩ := compile_ok hmiddle hcompile
  have hfirst := (compile_frame hmiddle source options).folders
  have hrest := (compileAll_frame options later hunlinked').folders
  rw [hcompile] at hfirst
  rw [hothers] at hrest
  obtain ⟨location, hlocation⟩ := exists_locate_of_at? hmade
  obtain ⟨found, hfound⟩ := exists_locate_of_at? hread
  have hlocate := hrest.locate_eq_ok_iff.2 hlocation
  have hsource := (hfirst.trans hrest).locate_eq_ok_iff.2 hfound
  obtain ⟨stem, parent, hstem, hparent, hplace⟩ :=
    exists_parent_of_outputPath Path.ending_code htarget hlocate
  exact ⟨target, location, hindex, hlocate, stem, parent, hstem,
    outputFolder_of_folder hstem hsource hparent, hplace⟩

omit hunlinked hok in
/-- Two sources inside one directory with the same stem have one place for an output. -/
theorem OutputAt.eq_of_stem {path ending name name' : String} {location location' : Location}
    (hname : Path.Proper name.toList) (hname' : Path.Proper name'.toList)
    (hstems : Path.stem? name = Path.stem? name')
    (h : disk.OutputAt (Path.join path name) options ending location)
    (h' : disk.OutputAt (Path.join path name') options ending location') :
    location = location' := by
  obtain ⟨stem, parent, hstem, hfolder, rfl⟩ := h
  obtain ⟨stem', parent', hstem', hfolder', rfl⟩ := h'
  rw [Path.stem?_join hname, hstems, ← Path.stem?_join hname', hstem'] at hstem
  cases hstem
  -- without a directory of their own for outputs, both go where the sources are
  have hparents : parent = parent' := by
    unfold OutputFolder at hfolder hfolder'
    cases hout : options.outDir with
    | some directory =>
      rw [hout] at hfolder hfolder'
      exact Except.ok.inj (hfolder.symm.trans hfolder')
    | none =>
      rw [hout] at hfolder hfolder'
      obtain ⟨_, hlocate⟩ := hfolder
      obtain ⟨_, hlocate'⟩ := hfolder'
      obtain ⟨-, -, -, inside, hinside, -, hplace⟩ := (locate_join_eq_ok_iff hname).1 hlocate
      obtain ⟨-, -, -, inside', hinside', -, hplace'⟩ := (locate_join_eq_ok_iff hname').1 hlocate'
      rw [hinside] at hinside'
      cases hinside'
      rw [(List.cons.inj hplace).2, (List.cons.inj hplace').2]
  rw [hparents]

/-- A source whose stem no later source has: what it is compiled to stays. -/
theorem compileAll_last
    (hsource : Path.isSource source = true)
    (hlast : ∀ other ∈ later, Path.stem? other ≠ Path.stem? source) :
    ∃ target text output, targets[earlier.length]? = some target ∧
      disk.at? source = some (.file text.toUTF8.data.toList) ∧ compileText text = .ok output ∧
      reached.at? target = some (.file output.toUTF8.data.toList) := by
  obtain ⟨before, middle, target, made, others, hbefore, hmiddle, hcompile, hunlinked', hothers,
    hindex⟩ := exists_step_of_compileAll hunlinked hok
  obtain ⟨htarget, text, output, hread, htext, hmade⟩ := compile_ok hmiddle hcompile
  refine ⟨target, text, output, hindex, ?_, htext, ?_⟩
  -- the sources before it do not change what it holds
  · have hframe := compileAll_frame options earlier hunlinked
    rw [hbefore] at hframe
    rw [← hread, hframe.at?_source (fun _ ⟨other, _, hother⟩ => ⟨other, hother⟩) hsource]
  -- and those behind it do not change what it was compiled to
  · have hframe := compileAll_frame options later hunlinked'
    rw [hothers] at hframe
    rw [← hmade]
    refine hframe.at?_eq fun location hlocate => ?_
    rintro ⟨other, hmem, hother⟩
    exact hlast other hmem
      (hother.stem_eq (isOutput_of_locate Path.ending_code htarget hlocate))

end Steps

/-- Sources that can all be compiled, into places that are there, are compiled. -/
theorem exists_compileAll_ok {options : BuildOptions} (htokens : options.tokens = false)
    {sources : List String} {disk : Disk} (hunlinked : disk.Unlinked)
    (hall : ∀ source ∈ sources, Path.isSource source = true ∧
      ∃ target text output, Build.outputPath source options ".vm" = .ok target ∧
        disk.Creatable target ∧ disk.Removable target ∧
        disk.at? source = some (.file text.toUTF8.data.toList) ∧ compileText text = .ok output) :
    ∃ targets reached, compileAll options sources disk = (.ok targets, reached) := by
  induction sources generalizing disk with
  | nil => exact ⟨[], disk, rfl⟩
  | cons source rest ih =>
    obtain ⟨hsource, target, text, output, htarget, hplace, -, hread, htext⟩ :=
      hall source List.mem_cons_self
    have houtcome := Build.fileOutcome_compile { disk } hunlinked source options
    have hframe := compile_frame hunlinked source options
    have hok : (disk.compile source options).1 = .ok target := by
      rw [(houtcome.compiled target htarget).agrees ⟨hsource, by simp [htokens],
        ⟨_, readSource_eq_ok_iff.2 (.inl ⟨_, hread, rfl⟩)⟩, hplace⟩ text hread, htext]
      rfl
    rcases hcompile : disk.compile source options with ⟨result, middle⟩
    rw [hcompile] at hok hframe
    cases hok
    -- the first source changed none of the others, and no directory
    obtain ⟨targets, reached, hrest⟩ := ih (hframe.unlinked hunlinked) fun other hmem => by
      obtain ⟨hother, target', text', output', htarget', hplace', hremovable', hread', htext'⟩ :=
        hall other (List.mem_cons_of_mem _ hmem)
      refine ⟨hother, target', text', output', htarget',
        hframe.folders.creatable_of_removable hremovable' hplace',
        hframe.folders.removable_iff.2 hremovable', ?_, htext'⟩
      rw [← hread', hframe.at?_source (fun _ hbelongs => ⟨source, hbelongs⟩) hother]
    refine ⟨target :: targets, reached, ?_⟩
    rw [compileAll, Build.andThen_ok hcompile, Build.andThen_ok hrest]

end Disk

/-! ## Directories with several sources -/

/-- The last of some names with the stem of a name. -/
def LastWithStem (names : List String) (name last : String) : Prop :=
  ∃ before after, names = before ++ last :: after ∧ Path.stem? last = Path.stem? name ∧
    ∀ other ∈ after, Path.stem? other ≠ Path.stem? name

theorem LastWithStem.mem {names : List String} {name last : String}
    (h : LastWithStem names name last) : last ∈ names := by
  obtain ⟨before, after, rfl, -⟩ := h
  exact List.mem_append_right _ List.mem_cons_self

/-- If some name has a stem there is a last one with it. -/
theorem exists_lastWithStem {names : List String} {name : String}
    (hmem : ∃ other ∈ names, Path.stem? other = Path.stem? name) :
    ∃ last, LastWithStem names name last := by
  induction names with
  | nil => simp at hmem
  | cons first rest ih =>
    by_cases hrest : ∃ other ∈ rest, Path.stem? other = Path.stem? name
    · obtain ⟨last, before, after, rfl, hlast⟩ := ih hrest
      exact ⟨last, first :: before, after, rfl, hlast⟩
    · obtain ⟨other, hother, hstem⟩ := hmem
      rcases List.mem_cons.1 hother with rfl | hother
      · exact ⟨other, [], rest, rfl, hstem, fun later hlater heq => hrest ⟨later, hlater, heq⟩⟩
      · exact absurd ⟨other, hother, hstem⟩ hrest

/-- A name at a position, with what is in front of it and behind. -/
theorem exists_split_of_getElem? {names : List String} {name : String} {i : Nat}
    (hname : names[i]? = some name) :
    ∃ earlier later, names = earlier ++ name :: later ∧ earlier.length = i := by
  obtain ⟨hi, rfl⟩ := List.getElem?_eq_some_iff.1 hname
  refine ⟨names.take i, names.drop (i + 1), ?_, List.length_take_of_le (Nat.le_of_lt hi)⟩
  rw [← List.drop_eq_getElem_cons hi, List.take_append_drop]

namespace Disk

/-- What stands in the place of an output is what the last source with its stem is compiled to. -/
theorem exists_last_of_compileAll {options : BuildOptions} {names targets : List String}
    {path : String} {disk reached : Disk} (hunlinked : disk.Unlinked)
    (hok : compileAll options (names.map (Path.join path)) disk = (.ok targets, reached))
    (hnames : ∀ name ∈ names, FileName name ∧ Path.isSource name = true) {i : Nat}
    {name target : String} (hname : names[i]? = some name) (htarget : targets[i]? = some target) :
    ∃ last text output, LastWithStem names name last ∧
      disk.at? (Path.join path last) = some (.file text.toUTF8.data.toList) ∧
      compileText text = .ok output ∧
      reached.at? target = some (.file output.toUTF8.data.toList) := by
  have hmem : name ∈ names := List.mem_of_getElem? hname
  obtain ⟨last, hlast⟩ := exists_lastWithStem ⟨name, hmem, rfl⟩
  have hproper := (hnames name hmem).1.proper
  have hproper' := (hnames last hlast.mem).1.proper
  have ⟨before, after, hsplit, hstem, hafter⟩ := hlast
  -- the run, cut at the last source with the stem
  have hrun := hok
  rw [hsplit, List.map_append, List.map_cons] at hrun
  have hstems : ∀ other ∈ after.map (Path.join path),
      Path.stem? other ≠ Path.stem? (Path.join path last) := by
    intro other hother
    obtain ⟨inside, hinside, rfl⟩ := List.mem_map.1 hother
    have hfile := (hnames inside
      (hsplit ▸ List.mem_append_right _ (List.mem_cons_of_mem _ hinside))).1
    rw [Path.stem?_join hfile.proper, Path.stem?_join hproper', hstem]
    exact hafter inside hinside
  have hsource : Path.isSource (Path.join path last) = true := by
    rw [Path.isSource_join hproper', (hnames last hlast.mem).2]
  obtain ⟨target', text, output, hindex, hread, htext, hmade⟩ :=
    compileAll_last hunlinked hrun hsource hstems
  obtain ⟨_, location', hindex', hlocate', hplace'⟩ := exists_outputAt_of_compileAll hunlinked hrun
  rw [hindex] at hindex'
  cases hindex'
  -- and at the source in question: both have the same place
  obtain ⟨earlier, later, hcut, rfl⟩ := exists_split_of_getElem? hname
  rw [hcut, List.map_append, List.map_cons] at hok
  obtain ⟨_, location, hhere, hlocate, hplace⟩ := exists_outputAt_of_compileAll hunlinked hok
  rw [List.length_map, htarget] at hhere
  cases hhere
  obtain rfl := hplace.eq_of_stem hproper hproper' hstem.symm hplace'
  refine ⟨last, text, output, hlast, hread, htext, ?_⟩
  rw [at?_of_locate hlocate, ← at?_of_locate hlocate', hmade]

end Disk

namespace Build

open Syntax

/-- **Several sources.** A build of a directory compiles each source inside once, in order of the
names, and the output of a source holds what the last source with the same stem is compiled to. -/
theorem compilePath_compiles_each {workspace : Workspace} {path : String} {location : Location}
    {options : BuildOptions} {targets : List String} {reached : Disk}
    (hsound : workspace.disk.Sound) (hlocate : workspace.disk.locate path = .ok location)
    (hdirectory : workspace.disk.node? location = some .directory)
    (hok : outcome (compilePath path options) workspace = (.ok targets, reached)) :
    ∃ names : List String, names.Pairwise (· < ·) ∧
      (∀ name, name ∈ names ↔
        (∃ content, workspace.disk.node? (name :: location) = some (.file content)) ∧
          Path.isSource name = true ∧ (Path.join path name).utf8ByteSize ≤ Disk.maxPathBytes) ∧
      names.map (fun name => outputPath (Path.join path name) options ".vm") = targets.map .ok ∧
      ∀ (i : Nat) (name target : String), names[i]? = some name → targets[i]? = some target →
        ∃ last text output, LastWithStem names name last ∧
          workspace.disk.node? (last :: location) = some (.file text.toUTF8.data.toList) ∧
          compileText text = .ok output ∧
          reached.at? target = some (.file output.toUTF8.data.toList) := by
  rw [outcome_compilePath, Disk.sources_eq hlocate hdirectory] at hok
  refine ⟨_, Disk.pairwise_unitNames hsound,
    fun name => Disk.mem_unitNames_iff hsound hlocate hdirectory, ?_, ?_⟩
  · have hpaths := Disk.outputPaths_of_compileAll hok
    rwa [List.map_map] at hpaths
  · intro i name target hname htarget
    have hnames : ∀ name ∈ workspace.disk.unitNames path location,
        Disk.FileName name ∧ Path.isSource name = true := fun name hmem =>
      ⟨Disk.fileName_of_mem_unitNames hsound hmem,
        ((Disk.mem_unitNames_iff hsound hlocate hdirectory).1 hmem).2.1⟩
    -- the target is written last by the last source with its stem
    obtain ⟨last, text, output, hlast, hread, htext, hmade⟩ :=
      Disk.exists_last_of_compileAll hsound.unlinked hok hnames hname htarget
    exact ⟨last, text, output, hlast,
      ((Disk.at?_join hlocate hdirectory (hnames last hlast.mem).1).1 hread).2, htext, hmade⟩

/-! ### A source that gets lost -/

/-- A class of the name of the bare one, but one that does something. -/
def mainTree : ClassTree where
  name := "Main"
  declarations := []
  subroutines := [{
    kind := .function
    result := none
    name := "main"
    parameters := []
    locals := []
    body := .cons (.exit none) .nil }]

/-- The class as it is written. -/
def mainSource : String := "class Main { function void main() { return; } }"

/-- A directory with both classes, in files whose names differ in the case of the extension. -/
def sharingDisk : Disk where
  entries := [(["d"], .directory), (["Main.JACK", "d"], .file 0), (["Main.jack", "d"], .file 1)]
  contents := fun number => (if number = 0 then bareSource else mainSource).toUTF8.data.toList

theorem unlinked_sharingDisk : sharingDisk.Unlinked := by decide

/-- It is compiled to a function that returns at once. -/
theorem compileText_mainSource :
    compileText mainSource = .ok "function Main.main 0\npush constant 0\nreturn\n" := by
  have htokens : HasTokens mainSource mainTree.tokens := .of_pulled 14 (by decide +kernel)
  exact compileSource_of_yields mainTree (by decide) (Lexer.yields_iff_results.2 htokens)

theorem sound_sharingDisk : sharingDisk.Sound := by
  have hnames : ∀ name ∈ ["d", "Main.JACK", "Main.jack"], Disk.FileName name := by
    simp only [List.forall_mem_cons]
    exact ⟨⟨⟨by decide, by decide, by decide⟩, by decide, by decide⟩,
      ⟨⟨by decide, by decide, by decide⟩, by decide, by decide⟩,
      ⟨⟨by decide, by decide, by decide⟩, by decide, by decide⟩,
      fun _ hmem => absurd hmem List.not_mem_nil⟩
  have hall : ∀ entry ∈ sharingDisk.entries, ∀ name ∈ entry.1,
      name ∈ ["d", "Main.JACK", "Main.jack"] := by decide
  exact ⟨by decide, fun entry hentry name hname => hnames name (hall entry hentry name hname),
    unlinked_sharingDisk⟩

/-- Both files are sources, and the upper case comes first. -/
theorem sources_sharingDisk : sharingDisk.sources "d" = ["d/Main.JACK", "d/Main.jack"] := by
  have hlocate : sharingDisk.locate "d" = .ok ["d"] := rfl
  have hnames : (sharingDisk.entries.map Prod.fst).filterMap (Disk.nameInside? ["d"]) =
      ["Main.JACK", "Main.jack"] := by decide
  rw [Disk.sources_eq hlocate rfl, Disk.unitNames, hnames, List.mergeSort_of_pairwise (by decide)]
  rfl

/-- Both sources are compiled, and both to the same path. -/
theorem exists_outcome_sharingDisk :
    ∃ reached, outcome (compilePath "d" {}) { disk := sharingDisk } =
      (.ok ["d/Main.vm", "d/Main.vm"], reached) := by
  have hplace : sharingDisk.Creatable "d/Main.vm" := ⟨["Main.vm", "d"], rfl, by decide, by decide⟩
  have hremovable : sharingDisk.Removable "d/Main.vm" := fun _ _ => List.not_mem_nil
  obtain ⟨targets, reached, hok⟩ : ∃ targets reached,
      Disk.compileAll {} ["d/Main.JACK", "d/Main.jack"] sharingDisk = (.ok targets, reached) := by
    apply Disk.exists_compileAll_ok rfl unlinked_sharingDisk
    intro source hmem
    rw [List.mem_cons, List.mem_singleton] at hmem
    rcases hmem with rfl | rfl
    · exact ⟨rfl, "d/Main.vm", bareSource, _, rfl, hplace, hremovable, rfl,
        compileText_bareSource⟩
    · exact ⟨rfl, "d/Main.vm", mainSource, _, rfl, hplace, hremovable, rfl,
        compileText_mainSource⟩
  have hpaths : ["d/Main.vm", "d/Main.vm"].map Except.ok = targets.map Except.ok :=
    Disk.outputPaths_of_compileAll hok
  obtain rfl := (List.map_inj_right fun _ _ => Except.ok.inj).1 hpaths
  refine ⟨reached, ?_⟩
  rw [outcome_compilePath, sources_sharingDisk, hok]

/-- The result names an output for each source, but there is one file, and it holds what the
second source is compiled to. What the first one is compiled to is nowhere. -/
theorem compilePath_loses_unit :
    ∃ reached, outcome (compilePath "d" {}) { disk := sharingDisk } =
        (.ok ["d/Main.vm", "d/Main.vm"], reached) ∧
      sharingDisk.at? "d/Main.JACK" = some (.file bareSource.toUTF8.data.toList) ∧
      compileText bareSource = .ok "" ∧
      reached.at? "d/Main.vm" ≠ some (.file "".toUTF8.data.toList) := by
  obtain ⟨reached, hok⟩ := exists_outcome_sharingDisk
  refine ⟨reached, hok, rfl, compileText_bareSource, ?_⟩
  have hsplit : Disk.compileAll {} (["d/Main.JACK"] ++ "d/Main.jack" :: []) sharingDisk =
      (.ok ["d/Main.vm", "d/Main.vm"], reached) := by
    rw [← hok, outcome_compilePath, sources_sharingDisk]
    rfl
  obtain ⟨target, text, output, htarget, hread, htext, hmade⟩ :=
    Disk.compileAll_last unlinked_sharingDisk hsplit rfl nofun
  cases htarget
  have hbytes : mainSource.toUTF8.data.toList = text.toUTF8.data.toList :=
    Node.file.inj (Option.some.inj hread)
  have hmain : compileText mainSource = .ok output := by
    rw [← htext, compileText, compileText, Source.ofText, Source.ofText, hbytes]
  rw [compileText_mainSource] at hmain
  cases hmain
  rw [hmade]
  decide

/-- The directory is one that is compiled: both names are there, in order. -/
theorem compilePath_compiles_each_sharing :
    ∃ (targets names : List String) (reached : Disk),
      outcome (compilePath "d" {}) { disk := sharingDisk } = (.ok targets, reached) ∧
      names.Pairwise (· < ·) ∧ "Main.JACK" ∈ names ∧ "Main.jack" ∈ names ∧
      names.map (fun name => outputPath (Path.join "d" name) {} ".vm") = targets.map .ok := by
  obtain ⟨reached, hok⟩ := exists_outcome_sharingDisk
  have hlocate : sharingDisk.locate "d" = .ok ["d"] := rfl
  obtain ⟨names, hsorted, hmem, hpaths, -⟩ :=
    compilePath_compiles_each sound_sharingDisk hlocate rfl hok
  refine ⟨_, names, reached, hok, hsorted, ?_, ?_, hpaths⟩
  · exact (hmem _).2 ⟨⟨_, rfl⟩, rfl, by decide⟩
  · exact (hmem _).2 ⟨⟨_, rfl⟩, rfl, by decide⟩

end Build

end Jack
