/-
A disk as a value: directories and files by location, and a current directory.

A path is followed piece by piece from the current directory, or from the root if
it begins with a slash. Whatever a path goes through has to be a directory, also
in front of a slash at its end; the last piece may lead to nothing, and what that
means is for the operation to say.

A file is not the same as its name. A location holds the number of a file, and the
content belongs to the number: locations with one number are links to one file, and
what is written through one of them is read through the others. A directory may be
locked. Then no name can be made in it or removed from it, but the files in it can
still be written. A file that cannot be removed stays, without an error.

Left out are links that are paths themselves, permissions of single files, writes
that stop in the middle, and everybody else who uses the disk at the same time.
-/
import Jack.Files.Path
import Jack.Files.Store

set_option autoImplicit false

namespace Jack

/-- A place on a disk: names from the inside out, so that the head is the name
inside the directory that the tail leads to. The root is the empty list. -/
abbrev Location := List String

/-- What a location of a disk holds. -/
inductive Entry where
  /-- A name of the file with a number. -/
  | file (number : Nat)
  | directory
  deriving DecidableEq, Repr

/-- What is found at a location of a disk. -/
inductive Node where
  | file (content : List UInt8)
  | directory
  deriving DecidableEq

/-- Directories and files. -/
structure Disk where
  /-- What there is, apart from the root. -/
  entries : List (Location × Entry) := []
  /-- The contents of the files, by their numbers. -/
  contents : Nat → List UInt8 := fun _ => []
  /-- The directories in which no name can be made or removed. -/
  locked : List Location := []
  /-- The current directory. -/
  home : Location := []

namespace Disk

/-! ## Locations -/

/-- What a location holds. -/
def holds? (disk : Disk) (location : Location) : Option Entry :=
  if location.isEmpty then some .directory else disk.entries.lookup location

/-- What an entry leads to. -/
def node (disk : Disk) : Entry → Node
  | .file number => .file (disk.contents number)
  | .directory => .directory

/-- What is found at a location. -/
def node? (disk : Disk) (location : Location) : Option Node :=
  (disk.holds? location).map disk.node

/-- Everything there is, with its location. -/
def nodes (disk : Disk) : List (Location × Node) :=
  disk.entries.map fun (location, entry) => (location, disk.node entry)

/-- A disk without what stands at a location. -/
def erase (disk : Disk) (location : Location) : Disk :=
  { disk with entries := disk.entries.filter fun entry => entry.1 != location }

/-- A disk with something put at a location. -/
def put (disk : Disk) (location : Location) (entry : Entry) : Disk :=
  { disk.erase location with entries := (location, entry) :: (disk.erase location).entries }

/-- A disk on which a file has another content. -/
def fill (disk : Disk) (number : Nat) (content : List UInt8) : Disk :=
  { disk with contents := fun other => if other = number then content else disk.contents other }

/-- What was put at a location is held there. The root cannot be replaced. -/
theorem holds?_put_self (disk : Disk) {location : Location} (hinside : location ≠ [])
    (entry : Entry) : (disk.put location entry).holds? location = some entry := by
  simp [holds?, put, hinside]

/-- Removing a name leaves the other names. -/
theorem holds?_erase_of_ne (disk : Disk) {location other : Location} (hother : other ≠ location) :
    (disk.erase location).holds? other = disk.holds? other := by
  unfold holds? erase
  split
  · rfl
  · dsimp only
    induction disk.entries with
    | nil => rfl
    | cons first rest ih =>
      obtain ⟨place, entry⟩ := first
      by_cases hplace : place = location
      · subst hplace
        simp [List.lookup_cons, ih, beq_false_of_ne hother]
      · simp [List.lookup_cons, hplace, ih]

/-- Putting something at one location leaves the others. -/
theorem holds?_put_of_ne (disk : Disk) {location other : Location} (entry : Entry)
    (hother : other ≠ location) : (disk.put location entry).holds? other = disk.holds? other := by
  rw [← holds?_erase_of_ne disk hother]
  simp [holds?, put, List.lookup_cons, beq_false_of_ne hother]

@[simp] theorem holds?_fill (disk : Disk) (number : Nat) (content : List UInt8)
    (location : Location) : (disk.fill number content).holds? location = disk.holds? location := rfl

@[simp] theorem contents_fill_self (disk : Disk) (number : Nat) (content : List UInt8) :
    (disk.fill number content).contents number = content := if_pos rfl

theorem contents_fill_of_ne (disk : Disk) {number other : Nat} (content : List UInt8)
    (hother : other ≠ number) :
    (disk.fill number content).contents other = disk.contents other := if_neg hother

/-- What was written last is what a file holds. -/
theorem fill_fill (disk : Disk) (number : Nat) (first second : List UInt8) :
    (disk.fill number first).fill number second = disk.fill number second := by
  simp only [fill, mk.injEq, true_and, and_true]
  funext other
  split <;> rfl

/-! ## Numbers of files -/

/-- The first number that no file of some entries has, nor any file with a larger number. -/
def ceiling : List (Location × Entry) → Nat
  | [] => 0
  | (_, .file number) :: rest => max (number + 1) (ceiling rest)
  | (_, .directory) :: rest => ceiling rest

/-- Every number is below the ceiling. -/
theorem lt_ceiling {entries : List (Location × Entry)} {location : Location} {number : Nat}
    (hmem : (location, .file number) ∈ entries) : number < ceiling entries := by
  induction entries with
  | nil => cases hmem
  | cons first rest ih =>
    rcases List.mem_cons.1 hmem with rfl | hrest
    · exact Nat.lt_of_lt_of_le (Nat.lt_succ_self number) (Nat.le_max_left _ _)
    · obtain ⟨place, entry⟩ := first
      cases entry with
      | file other => exact Nat.lt_of_lt_of_le (ih hrest) (Nat.le_max_right _ _)
      | directory => exact ih hrest

/-- Whether no two locations are links to one file. -/
def Unlinked (disk : Disk) : Prop :=
  ∀ first ∈ disk.entries, ∀ second ∈ disk.entries,
    first.2 = second.2 → first.2 ≠ .directory → first.1 = second.1

instance (disk : Disk) : Decidable disk.Unlinked :=
  inferInstanceAs (Decidable (∀ first ∈ disk.entries, ∀ second ∈ disk.entries,
    first.2 = second.2 → first.2 ≠ .directory → first.1 = second.1))

/-! ## Paths -/

/-- The most bytes that a name may have. -/
def maxNameBytes : Nat := 255

/-- The most bytes that a path may have. -/
def maxPathBytes : Nat := 4095

/-- Follows pieces of a path from a location. -/
def follow (disk : Disk) (location : Location) : List (List Char) → Except IoCause Location
  | [] => .ok location
  | piece :: rest =>
    match disk.node? location with
    | none => .error .notFound
    | some (.file _) => .error .notDirectory
    | some .directory =>
      -- only now: an idle piece leads nowhere, but not out of a file
      if Path.isIdle piece then disk.follow location rest
      else if piece = ['.', '.'] then disk.follow location.tail rest
      else
        let name := String.ofList piece
        if name.utf8ByteSize ≤ maxNameBytes then disk.follow (name :: location) rest
        else .error .nameTooLong

/-- The location that a path leads to. There need not be anything there. -/
def locate (disk : Disk) (path : String) : Except IoCause Location :=
  if path.toList.contains '\x00' then .error .nulInPath
  else if maxPathBytes < path.utf8ByteSize then .error .nameTooLong
  else match path.toList with
    | [] => .error .notFound
    | '/' :: rest => disk.follow [] (Path.pieces rest)
    | characters => disk.follow disk.home (Path.pieces characters)

/-- What a path leads to. -/
def find (disk : Disk) (path : String) : Except IoCause (Location × Entry) := do
  let location ← disk.locate path
  match disk.holds? location with
  | some entry => return (location, entry)
  | none => throw .notFound

/-! ## Operations -/

/-- Whether a path leads to a directory. -/
def isDirectory (disk : Disk) (path : String) : Bool :=
  match disk.find path with
  | .ok (_, .directory) => true
  | _ => false

/-- Whether a path leads to a regular file. -/
def isFile (disk : Disk) (path : String) : Bool :=
  match disk.find path with
  | .ok (_, .file _) => true
  | _ => false

/-- The name that a location has directly inside a directory. -/
def nameInside? (directory : Location) : Location → Option String
  | name :: parent => if parent = directory then some name else none
  | [] => none

/-- The names of everything directly inside a directory. -/
def entryNames (disk : Disk) (path : String) : Except IoCause (List String) := do
  match ← disk.find path with
  | (location, .directory) =>
    return disk.entries.filterMap fun entry => nameInside? location entry.1
  | (_, .file _) => throw .notDirectory

/-- Opens what a path leads to for reading. -/
def openSource (disk : Disk) (path : String) : Except IoCause Entry := do
  return (← disk.find path).2

/-- Reads what was opened to its end. -/
def read (disk : Disk) : Entry → Source
  | .file number => Source.ofBytes (disk.contents number)
  | .directory => Source.unreadable .isDirectory

/-- Makes an empty file where a path leads to, or empties the one that is there. The file is
known by its number from then on. -/
def create (disk : Disk) (path : String) : Except IoCause (Nat × Disk) := do
  let location ← disk.locate path
  match disk.holds? location with
  | some .directory => throw .isDirectory
  | some (.file number) => return (number, disk.fill number [])
  | none =>
    -- emptying a file needs no new name, so the lock counts only here
    if disk.locked.contains location.tail then throw .permissionDenied
    let number := ceiling disk.entries
    return (number, (disk.put location (.file number)).fill number [])

/-- Removes the name of a file that a path leads to, if there is one and it can be removed. -/
def remove (disk : Disk) (path : String) : Disk :=
  match disk.find path with
  | .ok (location, .file _) =>
    if disk.locked.contains location.tail then disk else disk.erase location
  | _ => disk

/-! ## Setting up a disk -/

/-- Puts a file where a path leads to, unless there is a directory. -/
def writeFile (disk : Disk) (path : String) (content : List UInt8) : Except IoCause Disk := do
  let (number, created) ← disk.create path
  return created.fill number content

/-- Makes directories from a location inwards, as far as there is nothing yet. -/
def makeDirectories (disk : Disk) (location : Location) : List (List Char) → Disk
  | [] => disk
  | piece :: rest =>
    if Path.isIdle piece then disk.makeDirectories location rest
    else
      let inner := String.ofList piece :: location
      let disk := if (disk.holds? inner).isSome then disk else disk.put inner .directory
      disk.makeDirectories inner rest

/-- Makes a directory inside the current one, and those on the way to it. -/
def withDirectory (disk : Disk) (path : String) : Disk :=
  disk.makeDirectories disk.home (Path.pieces path.toList)

/-- A disk that holds nothing but an empty current directory inside the root. -/
def empty (home : String) : Disk := { entries := [([home], .directory)], home := [home] }

end Disk

/-! ## A disk as a store -/

/-- A disk in use, with the log of what was done. -/
structure Workspace where
  disk : Disk
  log : Log := #[]

namespace Workspace

/-- Creates a file. -/
def create (path : String) : StateM Workspace (Except IoCause Nat) := fun workspace =>
  match workspace.disk.create path with
  | .ok (number, disk) => (.ok number, { workspace with disk })
  | .error cause => (.error cause, workspace)

/-- Carries out a change of the disk. -/
def change (action : Disk → Disk) : StateM Workspace Unit :=
  modify fun workspace => { workspace with disk := action workspace.disk }

end Workspace

instance : Store (StateM Workspace) where
  Input := Entry
  Output := Nat
  isDirectory path := return (← get).disk.isDirectory path
  isFile path := return (← get).disk.isFile path
  entryNames path := return (← get).disk.entryNames path
  openSource path := return (← get).disk.openSource path
  read input := return (← get).disk.read input
  create := Workspace.create
  save output content := do
    Workspace.change fun disk => disk.fill output content.data.toList
    return .ok ()
  remove path := Workspace.change fun disk => disk.remove path
  record events := modify fun workspace => { workspace with log := workspace.log ++ events }

end Jack
