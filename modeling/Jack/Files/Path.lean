/-
Paths as text.

A path is a text whose pieces are separated by slashes. Empty pieces and single
dots do not lead anywhere, except that a dot in front stands for the directory
one is in and is kept. What is computed here never looks at a disk: the file name
that a path ends in, how the name divides into stem and extension, the directory
in front of it, and the path of a name inside a directory.
-/

set_option autoImplicit false

namespace Jack.Path

/-- The pieces of a path between its slashes: always at least one. -/
def pieces : List Char → List (List Char)
  | [] => [[]]
  | c :: rest =>
    if c = '/' then [] :: pieces rest
    else match pieces rest with
      | [] => [[c]]
      | first :: more => (c :: first) :: more

/-- Whether a piece leads nowhere. -/
def isIdle (piece : List Char) : Bool := piece.isEmpty || piece == ['.']

/-- The first piece of a path and the ones behind it, last one first, from the
last one on that leads somewhere. -/
def backwards (path : String) : List Char × List (List Char) :=
  match pieces path.toList with
  | [] => ([], [])
  | first :: rest => (first, rest.reverse.dropWhile isIdle)

/-- The file name a path ends in. There is none if it ends in the directory
above, in the directory one is in, or in the root. -/
def fileName? (path : String) : Option (List Char) :=
  let last := match backwards path with
    | (first, []) => first
    | (_, last :: _) => last
  if isIdle last || last == ['.', '.'] then none else some last

/-- The text of a path given by its pieces. The empty piece alone is the root. -/
def ofPieces : List (List Char) → String
  | [[]] => "/"
  | pieces => String.ofList (List.intercalate ['/'] pieces)

/-- The directory in front of the file name that a path ends in; empty if the
path is the file name. -/
def directory (path : String) : String :=
  match backwards path with
  | (_, []) => ""
  | (first, _ :: before) => ofPieces (first :: (before.dropWhile isIdle).reverse)

/-- A file name divided at its last dot. A name whose only dot comes first has no
extension. -/
def divide (name : List Char) : List Char × Option (List Char) :=
  let reversed := name.reverse
  match reversed.dropWhile (· != '.') with
  -- without a dot nothing is left, and with a leading dot alone just that dot
  | [] | [_] => (name, none)
  | _ :: stem => (stem.reverse, some (reversed.takeWhile (· != '.')).reverse)

/-- The file name of a path without its extension. -/
def stem? (path : String) : Option String :=
  (fileName? path).map fun name => String.ofList (divide name).1

/-- The extension of the file name of a path. -/
def extension? (path : String) : Option (List Char) :=
  (fileName? path).bind fun name => (divide name).2

/-- The path of a name inside a directory. -/
def join (directory name : String) : String :=
  if directory.isEmpty then name
  else if directory.toList.getLast? == some '/' then directory ++ name
  else directory ++ "/" ++ name

/-- Whether a path has the extension of a source, in any mixture of cases. -/
def isSource (path : String) : Bool :=
  (extension? path).map (·.map Char.toLower) == some ['j', 'a', 'c', 'k']

end Jack.Path
