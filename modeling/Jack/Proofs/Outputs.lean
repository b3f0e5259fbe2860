/-
Outputs: their names, and making one.

A source is opened, its output is created, and what is made of the source is saved there or the
output is removed again. A token dump and a compilation do this in the same way with different
contents, so `Disk.produce` says it once, as a function on disks. On a disk without links, either
nothing has happened, because the source could not be opened or the output could not be created, or
one location has changed (`produce_cases`).

An output has a name that no source has (`isSource_output`). So without links making one never
changes what a source holds. With links it may: the source is read when the output has been
created, and creating an output that is a link to the source empties the source.
-/
import Jack.Proofs.Locations

set_option autoImplicit false

namespace Jack

/-! ## Names of sources and outputs -/

namespace Path

/-- The last piece of a path is its file name, if it is one that leads somewhere. -/
theorem fileName?_of_pieces {path : String} {front : List (List Char)} {name : List Char}
    (hpieces : pieces path.toList = front ++ [name]) (hname : Proper name) :
    fileName? path = some name := by
  have hidle : ¬ isIdle name = true := by simp [hname.notIdle]
  have hplain : (isIdle name || name == ['.', '.']) = false := by
    simp [hname.notIdle, hname.notAbove]
  cases front with
  | nil => simp [fileName?, backwards, hpieces, hplain]
  | cons first front =>
    have hbackwards : backwards path = (first, name :: front.reverse) := by
      rw [backwards, hpieces]
      simp [hidle]
    simp [fileName?, hbackwards, hplain]

/-- A proper name is a path of one piece. -/
theorem fileName?_of_proper {name : String} (hname : Proper name.toList) :
    fileName? name = some name.toList := by
  apply fileName?_of_pieces _ hname
  · exact []
  · exact pieces_of_not_mem hname.noSlash

/-- A name behind a directory is the file name of the whole, whatever the directory looks like. -/
theorem fileName?_join {directory name : String} (hname : Proper name.toList) :
    fileName? (join directory name) = some name.toList := by
  by_cases hdirectory : directory = ""
  · subst hdirectory
    exact fileName?_of_proper hname
  · rcases pieces_join hdirectory hname with ⟨front, -, hjoin⟩ | hjoin
    · exact fileName?_of_pieces hjoin hname
    · exact fileName?_of_pieces hjoin hname

/-- A name divided at a dot that no other dot follows. -/
theorem divide_of_not_mem {stem extension : List Char} (hextension : '.' ∉ extension) :
    divide (stem ++ '.' :: extension) =
      if stem = [] then ('.' :: extension, none) else (stem, some extension) := by
  have hplain : ∀ c ∈ extension.reverse, (c != '.') = true := by
    intro c hmem
    simp only [bne_iff_ne, ne_eq]
    rintro rfl
    exact hextension (List.mem_reverse.1 hmem)
  have hreverse : (stem ++ '.' :: extension).reverse =
      extension.reverse ++ '.' :: stem.reverse := by simp
  -- the last dot is found from the back, and the extension has none
  have hdrop : (extension.reverse ++ '.' :: stem.reverse).dropWhile (· != '.') =
      '.' :: stem.reverse := by
    rw [List.dropWhile_append_of_pos hplain]
    simp
  have htake : (extension.reverse ++ '.' :: stem.reverse).takeWhile (· != '.') =
      extension.reverse := by
    rw [List.takeWhile_append_of_pos hplain]
    simp
  simp only [divide, hreverse, hdrop, htake]
  cases hstem : stem.reverse with
  | nil => simp [List.reverse_eq_nil_iff.1 hstem]
  | cons c rest =>
    have hne : stem ≠ [] := by
      rintro rfl
      cases hstem
    simp [hne, ← hstem]

/-- What stands in front of the extension is a beginning of the name. -/
theorem stem_begins_name (name : List Char) : (divide name).1 <+: name := by
  unfold divide
  dsimp only
  split
  · exact List.prefix_refl _
  · exact List.prefix_refl _
  · next dot stem _ hdrop =>
    have hsuffix : dot :: stem <:+ name.reverse := by
      rw [← hdrop]
      exact List.dropWhile_suffix _
    exact List.reverse_suffix.1 (by simpa using (List.suffix_cons dot stem).trans hsuffix)

/-- Whether a name is that of a source is told by its extension, in either case. -/
theorem isSource_of_proper {name : String} (hname : Proper name.toList) :
    isSource name =
      ((divide name.toList).2.map (·.map Char.toLower) == some ['j', 'a', 'c', 'k']) := by
  rw [isSource, extension?, fileName?_of_proper hname]
  rfl

/-- Putting a directory in front makes no difference to the extension. -/
theorem isSource_join {directory name : String} (hname : Proper name.toList) :
    isSource (join directory name) = isSource name := by
  rw [isSource, isSource, extension?, extension?, fileName?_join hname, fileName?_of_proper hname]

/-- Putting a directory in front makes no difference to the stem. -/
theorem stem?_join {directory name : String} (hname : Proper name.toList) :
    stem? (join directory name) = stem? name := by
  rw [stem?, stem?, fileName?_join hname, fileName?_of_proper hname]

/-- A source has a file name, and the file name is that of a source. -/
theorem exists_fileName_of_isSource {source : String} (hsource : isSource source = true) :
    ∃ name, fileName? source = some name ∧ isSource (String.ofList name) = true := by
  cases hname : fileName? source with
  | none => simp [isSource, extension?, hname] at hsource
  | some name =>
    have hproper : Proper (String.ofList name).toList := by
      rw [String.toList_ofList]
      exact (pieces_of_fileName? hname).1
    refine ⟨name, rfl, ?_⟩
    rw [isSource, extension?, fileName?_of_proper hproper, String.toList_ofList]
    rw [isSource, extension?, hname] at hsource
    exact hsource

/-- What outputs end in: an extension that no source has, and more than what leads nowhere. -/
structure Ending (ending : String) : Prop where
  noSlash : '/' ∉ ending.toList
  long : 2 < ending.toList.length
  extension : ∃ front extension, ending.toList = front ++ '.' :: extension ∧ '.' ∉ extension ∧
    extension.map Char.toLower ≠ ['j', 'a', 'c', 'k']

/-- The ending of commands. -/
theorem ending_code : Ending ".vm" :=
  ⟨by decide, by decide, [], ['v', 'm'], by decide, by decide, by decide⟩

/-- The ending of token dumps. It is longer than an extension, since dumps have a letter of their
own. -/
theorem ending_dump : Ending "T.xml" :=
  ⟨by decide, by decide, ['T'], ['x', 'm', 'l'], by decide, by decide, by decide⟩

/-- The name of an output is one that paths can end in: an ending of three characters or more is
neither of the names that lead nowhere, with a stem or without. -/
theorem proper_output {source stem ending : String} (hstem : stem? source = some stem)
    (hending : Ending ending) : Proper (stem ++ ending).toList := by
  obtain ⟨name, hname, rfl⟩ := Option.map_eq_some_iff.1 hstem
  have hlength : 2 < ((divide name).1 ++ ending.toList).length := by
    rw [List.length_append]
    exact Nat.lt_add_left _ hending.long
  rw [String.toList_append, String.toList_ofList]
  refine ⟨?_, ?_, ?_⟩
  · intro hmem
    rcases List.mem_append.1 hmem with hmem | hmem
    · exact (pieces_of_fileName? hname).1.noSlash ((stem_begins_name name).subset hmem)
    · exact hending.noSlash hmem
  · cases hidle : isIdle ((divide name).1 ++ ending.toList) with
    | false => rfl
    | true =>
      rw [isIdle, Bool.or_eq_true, List.isEmpty_iff, beq_iff_eq] at hidle
      rcases hidle with hempty | hdot
      · simp [hempty] at hlength
      · simp [hdot] at hlength
  · intro habove
    simp [habove] at hlength

/-- No output is taken for a source, because the last dot of its name is that of its ending. -/
theorem isSource_output {source stem ending : String} (hstem : stem? source = some stem)
    (hending : Ending ending) : isSource (stem ++ ending) = false := by
  obtain ⟨front, extension, htext, hdot, hother⟩ := hending.extension
  rw [isSource_of_proper (proper_output hstem hending), String.toList_append, htext,
    ← List.append_assoc, divide_of_not_mem hdot]
  split
  · rfl
  · simpa using hother

end Path

/-! ## What is found -/

namespace Disk

/-- Directories are what they are, and no content decides about them. -/
theorem node?_eq_directory_iff {disk : Disk} {location : Location} :
    disk.node? location = some .directory ↔ disk.holds? location = some .directory := by
  rw [node?]
  cases disk.holds? location with
  | none => simp
  | some entry => cases entry <;> simp [node]

/-- A file is found with the content that its number stands for. -/
theorem node?_of_holds? {disk : Disk} {location : Location} {number : Nat}
    (hholds : disk.holds? location = some (.file number)) :
    disk.node? location = some (.file (disk.contents number)) := by
  rw [node?, hholds]
  rfl

/-- Nothing is found where nothing is held. -/
theorem node?_eq_none_iff {disk : Disk} {location : Location} :
    disk.node? location = none ↔ disk.holds? location = none := Option.map_eq_none_iff

/-- What a path leads to, if it leads to anything. -/
def at? (disk : Disk) (path : String) : Option Node :=
  (disk.find path).toOption.map fun found => disk.node found.2

/-- Finding is following the path and looking at what is held there. -/
theorem find_eq (disk : Disk) (path : String) :
    disk.find path = (disk.locate path).bind fun location =>
      ((disk.holds? location).elim (.error .notFound) fun entry => .ok (location, entry)) := by
  cases hlocate : disk.locate path with
  | error cause =>
    rw [find, hlocate]
    rfl
  | ok location =>
    rw [find, hlocate]
    cases hholds : disk.holds? location <;> simp [bind, Except.bind, hholds] <;> rfl

/-- A path that leads to what is held finds it. -/
theorem find_of_locate {disk : Disk} {path : String} {location : Location} {entry : Entry}
    (hlocate : disk.locate path = .ok location) (hholds : disk.holds? location = some entry) :
    disk.find path = .ok (location, entry) := by
  rw [find_eq, hlocate, Except.bind, hholds, Option.elim_some]

/-- What a path leads to is what its location has. -/
theorem at?_of_locate {disk : Disk} {path : String} {location : Location}
    (hlocate : disk.locate path = .ok location) : disk.at? path = disk.node? location := by
  rw [at?, find_eq, hlocate, Except.bind, node?]
  cases disk.holds? location <;> rfl

/-- A path that leads nowhere leads to nothing. -/
theorem at?_of_error {disk : Disk} {path : String} {cause : IoCause}
    (hlocate : disk.locate path = .error cause) : disk.at? path = none := by
  rw [at?, find_eq, hlocate]
  rfl

/-- A path that leads to something has a location. -/
theorem exists_locate_of_at? {disk : Disk} {path : String} {node : Node}
    (hat : disk.at? path = some node) : ∃ location, disk.locate path = .ok location := by
  cases hlocate : disk.locate path with
  | ok location => exact ⟨location, rfl⟩
  | error cause =>
    rw [at?_of_error hlocate] at hat
    cases hat

/-- What is read from a path, as long as nothing is written. -/
def readSource (disk : Disk) (path : String) : Except IoCause Source :=
  (disk.openSource path).map disk.read

/-- What can be opened is a file or a directory. Reading fails for a directory, but opening it does
not. -/
theorem readSource_eq_ok_iff {disk : Disk} {path : String} {lines : Source} :
    disk.readSource path = .ok lines ↔
      (∃ content, disk.at? path = some (.file content) ∧ lines = Source.ofBytes content) ∨
        disk.at? path = some .directory ∧ lines = Source.unreadable .isDirectory := by
  unfold readSource openSource at?
  cases disk.find path with
  | error cause => simp [bind, Except.bind, Except.map, Except.toOption]
  | ok found =>
    obtain ⟨location, entry⟩ := found
    cases entry <;>
      simp [bind, Except.bind, Except.map, Except.toOption, pure, Except.pure, read, node, eq_comm]

/-- A source that can be opened has a location. -/
theorem exists_locate_of_readSource {disk : Disk} {path : String} {lines : Source}
    (hread : disk.readSource path = .ok lines) : ∃ location, disk.locate path = .ok location := by
  rcases readSource_eq_ok_iff.1 hread with ⟨_, hfile, -⟩ | ⟨hdirectory, -⟩
  · exact exists_locate_of_at? hfile
  · exact exists_locate_of_at? hdirectory

/-! ## Links -/

/-- What a location holds is one of the entries. -/
theorem mem_of_holds? {disk : Disk} {location : Location} {number : Nat}
    (hholds : disk.holds? location = some (.file number)) :
    (location, .file number) ∈ disk.entries := by
  unfold holds? at hholds
  split at hholds
  · cases hholds
  · obtain ⟨before, after, hentries, -⟩ := List.lookup_eq_some_iff.1 hholds
    rw [hentries]
    exact List.mem_append_right _ List.mem_cons_self

/-- Without links a file has one location. -/
theorem Unlinked.eq_of_holds? {disk : Disk} (h : disk.Unlinked) {first second : Location}
    {number : Nat} (hfirst : disk.holds? first = some (.file number))
    (hsecond : disk.holds? second = some (.file number)) : first = second :=
  h _ (mem_of_holds? hfirst) _ (mem_of_holds? hsecond) rfl nofun

/-- No location holds a file whose number is the ceiling. -/
theorem holds?_ne_ceiling (disk : Disk) (location : Location) :
    disk.holds? location ≠ some (.file (ceiling disk.entries)) :=
  fun hholds => Nat.lt_irrefl _ (lt_ceiling (mem_of_holds? hholds))

/-- Removing a name makes no links. -/
theorem Unlinked.erase {disk : Disk} (h : disk.Unlinked) (location : Location) :
    (disk.erase location).Unlinked :=
  fun first hfirst second hsecond =>
    h first (List.mem_filter.1 hfirst).1 second (List.mem_filter.1 hsecond).1

/-- A file with a new number is not a link to another one. -/
theorem Unlinked.put {disk : Disk} (h : disk.Unlinked) (location : Location) :
    (disk.put location (.file (ceiling disk.entries))).Unlinked := by
  have hnew : ∀ other ∈ (disk.erase location).entries,
      other.2 ≠ .file (ceiling disk.entries) := by
    rintro ⟨place, entry⟩ hmem rfl
    exact Nat.lt_irrefl _ (lt_ceiling (List.mem_filter.1 hmem).1)
  intro first hfirst second hsecond hsame hfile
  rcases List.mem_cons.1 hfirst with rfl | hfirst
  · rcases List.mem_cons.1 hsecond with rfl | hsecond
    · rfl
    · exact absurd hsame.symm (hnew second hsecond)
  · rcases List.mem_cons.1 hsecond with rfl | hsecond
    · exact absurd hsame (hnew first hfirst)
    · exact h.erase location first hfirst second hsecond hsame hfile

/-! ## Changing one location -/

/-- One disk is another one with a file, or nothing, at a location. -/
structure Sets (disk : Disk) (location : Location) (content : Option (List UInt8))
    (reached : Disk) : Prop where
  home : reached.home = disk.home
  locked : reached.locked = disk.locked
  here : reached.node? location = content.map Node.file
  elsewhere : ∀ other, other ≠ location → reached.node? other = disk.node? other
  unlinked : reached.Unlinked

/-- A file in the place of a file, or of nothing, leaves the directories alone. So every path leads
where it led before. -/
theorem Sets.sameFolders {disk reached : Disk} {location : Location}
    {content : Option (List UInt8)} (h : disk.Sets location content reached)
    (hfree : disk.node? location ≠ some .directory) : disk.SameFolders reached := by
  refine ⟨h.home, h.locked, fun other => ?_⟩
  by_cases hother : other = location
  · subst hother
    rw [h.here]
    exact iff_of_false (by cases content <;> simp) hfree
  · rw [h.elsewhere other hother]

/-- One disk has become another one: directories stayed what they were, and so did everything
outside of some locations. No links were made. -/
structure Frame (disk reached : Disk) (touched : Location → Prop) : Prop where
  folders : disk.SameFolders reached
  kept : ∀ location, ¬ touched location → reached.node? location = disk.node? location
  unlinked : disk.Unlinked → reached.Unlinked

theorem Frame.refl (disk : Disk) (touched : Location → Prop) : disk.Frame disk touched :=
  ⟨.refl disk, fun _ _ => rfl, id⟩

theorem Frame.mono {disk reached : Disk} {touched touched' : Location → Prop}
    (h : disk.Frame reached touched) (hmore : ∀ location, touched location → touched' location) :
    disk.Frame reached touched' :=
  ⟨h.folders, fun location hother => h.kept location fun htouched => hother (hmore _ htouched),
    h.unlinked⟩

/-- What two changes leave alone, one behind the other, is what both of them leave alone. -/
theorem Frame.trans {disk middle reached : Disk} {touched : Location → Prop}
    (h : disk.Frame middle touched) (h' : middle.Frame reached touched) :
    disk.Frame reached touched :=
  ⟨h.folders.trans h'.folders, fun location hother =>
    (h'.kept location hother).trans (h.kept location hother), fun hdisk =>
    h'.unlinked (h.unlinked hdisk)⟩

/-- One location that has changed is all that is touched. -/
theorem Sets.frame {disk reached : Disk} {location : Location} {content : Option (List UInt8)}
    (h : disk.Sets location content reached) (hfree : disk.node? location ≠ some .directory)
    {touched : Location → Prop} (htouched : touched location) : disk.Frame reached touched := by
  refine ⟨h.sameFolders hfree, fun other hother => h.elsewhere other ?_, fun _ => h.unlinked⟩
  rintro rfl
  exact hother htouched

/-- What has changed was touched. -/
theorem Frame.touched_of_ne {disk reached : Disk} {touched : Location → Prop}
    (h : disk.Frame reached touched) {location : Location}
    (hchanged : reached.node? location ≠ disk.node? location) : touched location :=
  Classical.byContradiction fun hother => hchanged (h.kept location hother)

/-- A path that leads outside of the locations that were touched leads to the same as before. -/
theorem Frame.at?_eq {disk reached : Disk} {touched : Location → Prop}
    (h : disk.Frame reached touched) {path : String}
    (hpath : ∀ location, disk.locate path = .ok location → ¬ touched location) :
    reached.at? path = disk.at? path := by
  cases hlocate : disk.locate path with
  | ok location =>
    rw [at?_of_locate hlocate, at?_of_locate (h.folders.locate_eq_ok_iff.2 hlocate),
      h.kept location (hpath location hlocate)]
  | error cause =>
    cases hreached : reached.locate path with
    | ok location =>
      rw [h.folders.locate_eq_ok_iff.1 hreached] at hlocate
      cases hlocate
    | error cause' => rw [at?_of_error hlocate, at?_of_error hreached]

/-! ## Creating a file -/

/-- A file can be created where a path leads to: not in the place of a directory, and not in a
locked directory if there is no file yet. -/
def Creatable (disk : Disk) (path : String) : Prop :=
  ∃ location, disk.locate path = .ok location ∧ disk.node? location ≠ some .directory ∧
    (disk.node? location = none → location.tail ∉ disk.locked)

/-- Where only other locations were touched, a file can be created if it could be before. -/
theorem Frame.creatable_iff {disk reached : Disk} {touched : Location → Prop}
    (h : disk.Frame reached touched) {path : String}
    (hpath : ∀ location, disk.locate path = .ok location → ¬ touched location) :
    reached.Creatable path ↔ disk.Creatable path := by
  unfold Creatable
  simp only [h.folders.locate_eq_ok_iff, h.folders.locked]
  constructor
  · rintro ⟨location, hlocate, hplace⟩
    rw [h.kept location (hpath location hlocate)] at hplace
    exact ⟨location, hlocate, hplace⟩
  · rintro ⟨location, hlocate, hplace⟩
    rw [← h.kept location (hpath location hlocate)] at hplace
    exact ⟨location, hlocate, hplace⟩

/-- A file was created: one location holds it, and its number is that of no other location. -/
structure Begins (disk : Disk) (location : Location) (number : Nat) (created : Disk) : Prop where
  home : created.home = disk.home
  locked : created.locked = disk.locked
  here : created.holds? location = some (.file number)
  elsewhere : ∀ other, other ≠ location → created.holds? other = disk.holds? other
  apart : ∀ other, other ≠ location → disk.holds? other ≠ some (.file number)
  contents : ∀ other, other ≠ number → created.contents other = disk.contents other
  unlinked : created.Unlinked

/-- A file that was created could be created. -/
theorem creatable_of_create {disk created : Disk} {path : String} {number : Nat}
    (hcreate : disk.create path = .ok (number, created)) : disk.Creatable path := by
  unfold create at hcreate
  cases hlocate : disk.locate path with
  | error cause =>
    rw [hlocate] at hcreate
    cases hcreate
  | ok location =>
    simp only [hlocate, bind, Except.bind] at hcreate
    refine ⟨location, hlocate, ?_, ?_⟩
    · intro hnode
      rw [node?_eq_directory_iff.1 hnode] at hcreate
      cases hcreate
    · intro hnode hlocked
      rw [node?_eq_none_iff.1 hnode] at hcreate
      simp [hlocked, throw, throwThe, MonadExceptOf.throw] at hcreate

/-- A new file gets the number above all others. No location holds it yet, so it is linked to
nothing. -/
theorem begins_put {disk : Disk} {location : Location} (hunlinked : disk.Unlinked)
    (hinside : location ≠ []) :
    disk.Begins location (ceiling disk.entries)
      ((disk.put location (.file (ceiling disk.entries))).fill (ceiling disk.entries) []) where
  home := rfl
  locked := rfl
  here := holds?_put_self disk hinside _
  elsewhere _ hother := holds?_put_of_ne disk _ hother
  apart other _ := disk.holds?_ne_ceiling other
  contents _ hother := contents_fill_of_ne _ _ hother
  unlinked := hunlinked.put location

/-- An old file keeps its number, and without links it is held at this one location. -/
theorem begins_fill {disk : Disk} {location : Location} {number : Nat}
    (hunlinked : disk.Unlinked) (hholds : disk.holds? location = some (.file number)) :
    disk.Begins location number (disk.fill number []) where
  home := rfl
  locked := rfl
  here := hholds
  elsewhere _ _ := rfl
  apart _ hother hsame := hother (hunlinked.eq_of_holds? hsame hholds)
  contents _ hother := contents_fill_of_ne _ _ hother
  unlinked := hunlinked

/-- On a disk without links a file can be created wherever there is a place for it, and what is
created is known by a number of its own. -/
theorem exists_create {disk : Disk} {path : String} {location : Location}
    (hunlinked : disk.Unlinked) (hlocate : disk.locate path = .ok location)
    (hfree : disk.node? location ≠ some .directory)
    (hnew : disk.node? location = none → location.tail ∉ disk.locked) :
    ∃ number created, disk.create path = .ok (number, created) ∧
      disk.Begins location number created := by
  unfold create
  simp only [hlocate, bind, Except.bind]
  cases hholds : disk.holds? location with
  | none =>
    have hinside : location ≠ [] := by
      rintro rfl
      exact hfree rfl
    have hopen : disk.locked.contains location.tail = false := by
      simpa using hnew (node?_eq_none_iff.2 hholds)
    refine ⟨_, _, ?_, begins_put hunlinked hinside⟩
    rw [hopen]
    rfl
  | some entry =>
    cases entry with
    | directory => exact absurd (node?_eq_directory_iff.2 hholds) hfree
    | file number => exact ⟨number, _, rfl, begins_fill hunlinked hholds⟩

section Begins

variable {disk created : Disk} {location : Location} {number : Nat}

/-- What other locations held is read as before. -/
theorem Begins.read_eq (h : disk.Begins location number created) {other : Location}
    {entry : Entry} (hholds : disk.holds? other = some entry) (hother : other ≠ location) :
    created.read entry = disk.read entry := by
  cases entry with
  | directory => rfl
  | file number' =>
    have hapart : number' ≠ number := by
      rintro rfl
      exact h.apart other hother hholds
    rw [read, read, h.contents number' hapart]

/-- Writing to the file that was created changes nothing at other locations, since none of them
holds its number. -/
theorem Begins.node?_fill (h : disk.Begins location number created) (content : List UInt8)
    {other : Location} (hother : other ≠ location) :
    (created.fill number content).node? other = disk.node? other := by
  rw [node?, node?, holds?_fill, h.elsewhere other hother]
  cases hholds : disk.holds? other with
  | none => rfl
  | some entry =>
    cases entry with
    | directory => rfl
    | file number' =>
      have hapart : number' ≠ number := by
        rintro rfl
        exact h.apart other hother hholds
      simp only [Option.map_some, node, contents_fill_of_ne _ content hapart,
        h.contents number' hapart]

/-- A file that was created and given its content. -/
theorem Begins.sets_fill (h : disk.Begins location number created) (content : List UInt8) :
    disk.Sets location (some content) (created.fill number content) where
  home := h.home
  locked := h.locked
  here := by
    rw [node?_of_holds? ((holds?_fill _ _ _ _).trans h.here), contents_fill_self,
      Option.map_some]
  elsewhere _ hother := h.node?_fill content hother
  unlinked := h.unlinked

/-- A file that was created and removed again. -/
theorem Begins.sets_erase (h : disk.Begins location number created) (content : List UInt8) :
    disk.Sets location none ((created.fill number content).erase location) where
  home := h.home
  locked := h.locked
  here := by
    have hinside : location.isEmpty = false := by
      cases location with
      | nil =>
        have hroot : created.holds? [] = some .directory := rfl
        rw [h.here] at hroot
        cases hroot
      | cons => rfl
    rw [node?_eq_none_iff.2, Option.map_none]
    rw [holds?, hinside, if_neg Bool.false_ne_true, List.lookup_eq_none_iff]
    intro entry hmem
    have hkept : entry.1 ≠ location := bne_iff_ne.1 (List.mem_filter.1 hmem).2
    exact bne_iff_ne.2 hkept.symm
  elsewhere other hother := by
    rw [← h.node?_fill content hother, node?, node?, holds?_erase_of_ne _ hother]
    rfl
  unlinked := h.unlinked.erase location

end Begins

end Disk

/-! ## Making an output -/

namespace Build

/-- What was made of a source, if it was made to the end. -/
def whole (made : Except Error Unit × ByteArray) : Except Error ByteArray :=
  made.1.map fun _ => made.2

end Build

namespace Disk

open Build (whole)

/-- Saves what was made in a file that was created. A file whose content could not be made to the
end is removed, if it can be. -/
def complete (created : Disk) (target : String) (output : Nat)
    (made : Except Error Unit × ByteArray) : Except Error String × Disk :=
  match made.1 with
  | .error error => (.error error, (created.fill output made.2.data.toList).remove target)
  | .ok _ => (.ok target, created.fill output made.2.data.toList)

/-- Opens a source, creates a file, and saves there what is made of the source. -/
def produce (disk : Disk) (source target : String)
    (make : Source → Except Error Unit × ByteArray) : Except Error String × Disk :=
  match disk.openSource source with
  | .error cause => (.error (.io cause), disk)
  | .ok input =>
    match disk.create target with
    | .error cause => (.error (.io cause), disk)
    | .ok (output, created) => created.complete target output (make (created.read input))

/-- Making an output, once the source is open and the file is there. The source is read on the disk
behind the creation. -/
theorem produce_eq {disk created : Disk} {source target : String} {input : Entry} {output : Nat}
    (hopen : disk.openSource source = .ok input)
    (hcreate : disk.create target = .ok (output, created))
    (make : Source → Except Error Unit × ByteArray) :
    disk.produce source target make =
      created.complete target output (make (created.read input)) := by
  rw [produce, hopen]
  dsimp only
  rw [hcreate]

/-- An output that was made is at the path that was asked for. -/
theorem eq_of_produce_ok {disk : Disk} {source target path : String}
    {make : Source → Except Error Unit × ByteArray}
    (hok : (disk.produce source target make).1 = .ok path) : path = target := by
  unfold produce complete at hok
  repeat' split at hok
  all_goals cases hok
  rfl

/-- Whether a name that a path leads to can be removed. -/
def Removable (disk : Disk) (path : String) : Prop :=
  ∀ location, disk.locate path = .ok location → location.tail ∉ disk.locked

/-- What is left of an output that was begun, when its content could not be made to the end:
nothing, or what was made of it if it cannot be removed. -/
structure Abandoned (disk : Disk) (source target : String)
    (make : Source → Except Error Unit × ByteArray) (reached : Disk) : Prop where
  removed : disk.Removable target → reached.at? target = none
  stuck : ¬ disk.Removable target → ∃ lines, disk.readSource source = .ok lines ∧
    reached.at? target = some (.file (make lines).2.data.toList)

/-- What is left at a location of a file whose content could not be made to the end. -/
def leftover (disk : Disk) (location : Location) (content : List UInt8) : Option (List UInt8) :=
  if disk.locked.contains location.tail then some content else none

/-- Removing a file that was created, as far as that can be done: what was made of it stays in a
locked directory. -/
theorem Begins.sets_leftover {disk created : Disk} {path : String} {location : Location}
    {number : Nat} (h : disk.Begins location number created) (content : List UInt8)
    (hlocate : created.locate path = .ok location) :
    disk.Sets location (disk.leftover location content)
      ((created.fill number content).remove path) := by
  have hagain : (created.fill number content).locate path = .ok location := by
    have hfolders : created.SameFolders (created.fill number content) :=
      ⟨rfl, rfl, fun _ => by rw [node?_eq_directory_iff, node?_eq_directory_iff, holds?_fill]⟩
    exact hfolders.locate_eq_ok_iff.2 hlocate
  rw [leftover, remove, find_of_locate hagain ((holds?_fill _ _ _ _).trans h.here)]
  dsimp only
  rw [show (created.fill number content).locked = disk.locked from h.locked]
  split
  · exact h.sets_fill content
  · exact h.sets_erase content

section Produce

variable {disk : Disk} {source target : String}
  (hunlinked : disk.Unlinked)
  (hother : ∀ location, disk.locate source = .ok location → disk.locate target ≠ .ok location)
  (make : Source → Except Error Unit × ByteArray)

include hunlinked hother

/-- **Making an output.** On a disk without links, nothing happens without a source or without a
place for the output. Otherwise the output is there, if it could be made to its end, or there is
nothing in its place, unless it cannot be removed. -/
theorem produce_cases :
    (¬ ((∃ lines, disk.readSource source = .ok lines) ∧ disk.Creatable target) ∧
      ∃ error, disk.produce source target make = (.error error, disk)) ∨
    ∃ lines location, disk.readSource source = .ok lines ∧ disk.Creatable target ∧
      disk.locate target = .ok location ∧ disk.node? location ≠ some .directory ∧
      ((∃ error reached, whole (make lines) = .error error ∧
          disk.produce source target make = (.error error, reached) ∧
          disk.Sets location (disk.leftover location (make lines).2.data.toList) reached) ∨
        ∃ bytes reached, whole (make lines) = .ok bytes ∧
          disk.produce source target make = (.ok target, reached) ∧
          disk.Sets location (some bytes.data.toList) reached) := by
  unfold produce
  cases hopen : disk.openSource source with
  | error cause => exact .inl ⟨fun h => by simp [readSource, hopen, Except.map] at h, _, rfl⟩
  | ok input =>
    cases hcreate : disk.create target with
    | error cause =>
      refine .inl ⟨?_, _, rfl⟩
      rintro ⟨-, location, hlocate, hfree, hnew⟩
      obtain ⟨_, _, hcreated, -⟩ := exists_create hunlinked hlocate hfree hnew
      rw [hcreated] at hcreate
      cases hcreate
    | ok output =>
      obtain ⟨number, created⟩ := output
      have hplace := creatable_of_create hcreate
      obtain ⟨location, hlocate, hfree, hnew⟩ := hplace
      obtain ⟨_, _, hcreated, hbegins⟩ := exists_create hunlinked hlocate hfree hnew
      rw [hcreated] at hcreate
      cases hcreate
      -- the source is elsewhere, so creating the output has not changed it
      obtain ⟨found, hfound, hholds⟩ : ∃ found, disk.locate source = .ok found ∧
          disk.holds? found = some input := by
        rw [openSource, find_eq] at hopen
        cases hsource : disk.locate source with
        | error cause => simp [hsource, bind, Except.bind] at hopen
        | ok found =>
          refine ⟨found, rfl, ?_⟩
          cases hentry : disk.holds? found with
          | none => simp [hsource, hentry, bind, Except.bind] at hopen
          | some entry =>
            simp [hsource, hentry, bind, Except.bind, pure, Except.pure] at hopen
            rw [hopen]
      have hread : created.read input = disk.read input :=
        hbegins.read_eq hholds fun hsame => hother found hfound (hsame ▸ hlocate)
      have hagain : created.locate target = .ok location := by
        have hfolders := (hbegins.sets_fill []).sameFolders hfree
        have hnothing : (created.fill number []).SameFolders created :=
          ⟨rfl, rfl, fun _ => by rw [node?_eq_directory_iff, node?_eq_directory_iff, holds?_fill]⟩
        exact (hfolders.trans hnothing).locate_eq_ok_iff.2 hlocate
      refine .inr ⟨disk.read input, location, by rw [readSource, hopen]; rfl,
        ⟨location, hlocate, hfree, hnew⟩, hlocate, hfree, ?_⟩
      dsimp only
      rw [hread, complete, whole]
      cases (make (disk.read input)).1 with
      | error error => exact .inl ⟨error, _, rfl, rfl, hbegins.sets_leftover _ hagain⟩
      | ok _ => exact .inr ⟨_, _, rfl, rfl, hbegins.sets_fill _⟩

/-- The result of making an output is that of making its content. The disk has a part in it only by
the source and the place. -/
theorem produce_result {lines : Source} (hread : disk.readSource source = .ok lines)
    (hplace : disk.Creatable target) :
    (disk.produce source target make).1 = (whole (make lines)).map fun _ => target := by
  rcases produce_cases hunlinked hother make with ⟨hbegun, -⟩ |
    ⟨lines', location, hread', -, -, -, hmade⟩
  · exact absurd ⟨⟨lines, hread⟩, hplace⟩ hbegun
  · rw [hread] at hread'
    cases hread'
    rcases hmade with ⟨error, reached, hmake, hproduce, -⟩ | ⟨bytes, reached, hmake, hproduce, -⟩
    · rw [hproduce, hmake]
      rfl
    · rw [hproduce, hmake]
      rfl

/-- Only the place of the output is touched, and only if there is a source. -/
theorem produce_frame :
    disk.Frame (disk.produce source target make).2 fun location =>
      (∃ found, disk.locate source = .ok found) ∧ disk.locate target = .ok location := by
  rcases produce_cases hunlinked hother make with ⟨-, error, hproduce⟩ |
    ⟨lines, location, hread, -, hlocate, hfree, hmade⟩
  · rw [hproduce]
    exact .refl disk _
  · have hsource := exists_locate_of_readSource hread
    rcases hmade with ⟨error, reached, -, hproduce, hsets⟩ | ⟨bytes, reached, -, hproduce, hsets⟩
    · rw [hproduce]
      exact hsets.frame hfree ⟨hsource, hlocate⟩
    · rw [hproduce]
      exact hsets.frame hfree ⟨hsource, hlocate⟩

/-- What is found afterwards where an output should be. -/
theorem produce_target :
    (∃ error, (disk.produce source target make).1 = .error error ∧
      (((∃ lines, disk.readSource source = .ok lines) ∧ disk.Creatable target) ∧
          disk.Abandoned source target make (disk.produce source target make).2 ∨
        ¬ ((∃ lines, disk.readSource source = .ok lines) ∧ disk.Creatable target) ∧
          (disk.produce source target make).2.at? target = disk.at? target)) ∨
    ∃ lines bytes, (disk.produce source target make).1 = .ok target ∧
      disk.readSource source = .ok lines ∧ whole (make lines) = .ok bytes ∧
      (disk.produce source target make).2.at? target = some (.file bytes.data.toList) := by
  rcases produce_cases hunlinked hother make with ⟨hbegun, error, hproduce⟩ |
    ⟨lines, location, hread, hplace, hlocate, hfree, hmade⟩
  · rw [hproduce]
    exact .inl ⟨error, rfl, .inr ⟨hbegun, rfl⟩⟩
  · rcases hmade with ⟨error, reached, hmake, hproduce, hsets⟩ |
      ⟨bytes, reached, hmake, hproduce, hsets⟩
    · have hreached := (hsets.sameFolders hfree).locate_eq_ok_iff.2 hlocate
      rw [hproduce]
      refine .inl ⟨error, rfl, .inl ⟨⟨⟨lines, hread⟩, hplace⟩, fun hremovable => ?_,
        fun hremovable => ⟨lines, hread, ?_⟩⟩⟩
      -- the directory of the target decides what is left of it
      · have hopen : disk.locked.contains location.tail = false := by
          simpa using hremovable location hlocate
        rw [at?_of_locate hreached, hsets.here, leftover, hopen]
        rfl
      · have hlocked : disk.locked.contains location.tail = true := by
          refine Decidable.byContradiction fun hopen => hremovable fun other hsame => ?_
          rw [hlocate] at hsame
          cases hsame
          simpa using hopen
        rw [at?_of_locate hreached, hsets.here, leftover, hlocked]
        rfl
    · have hreached := (hsets.sameFolders hfree).locate_eq_ok_iff.2 hlocate
      rw [hproduce]
      refine .inr ⟨lines, bytes, rfl, hread, hmake, ?_⟩
      rw [at?_of_locate hreached, hsets.here, Option.map_some]

end Produce

/-- An output that is a link to its source empties the source before anything of it is read: what
is saved is made of nothing. -/
theorem produce_of_link {disk : Disk} {source target : String} {place place' : Location}
    {number : Nat} (hsource : disk.locate source = .ok place)
    (hplace : disk.holds? place = some (.file number)) (htarget : disk.locate target = .ok place')
    (hplace' : disk.holds? place' = some (.file number))
    (make : Source → Except Error Unit × ByteArray) :
    disk.produce source target make =
      (disk.fill number []).complete target number (make []) := by
  have hopen : disk.openSource source = .ok (.file number) := by
    rw [openSource, find_of_locate hsource hplace]
    rfl
  have hcreate : disk.create target = .ok (number, disk.fill number []) := by
    simp only [create, htarget, bind, Except.bind, hplace']
    rfl
  have hread : (disk.fill number []).read (.file number) = [] := by
    rw [read, contents_fill_self]
    rfl
  rw [produce_eq hopen hcreate, hread]

end Disk

end Jack
