/-
What a build needs of the place where its files are.

A `Store` offers the handful of operations that compiling a file takes. The
build is written once against this interface: it runs on the disk of the machine
and on a disk that is a value.

A file that was opened or created is known by a handle from then on. What is read
through it is what the file holds at the time of reading, and not what it held when
it was opened.
-/
import Jack.Log
import Jack.Source

set_option autoImplicit false

namespace Jack

/-- The operations on files that a build uses. Paths are texts, read against the
store's current directory. -/
class Store (m : Type → Type) where
  /-- A handle of a file that was opened for reading. -/
  Input : Type
  /-- A handle of a file that was created. -/
  Output : Type
  /-- Whether a path leads to a directory. -/
  isDirectory : String → m Bool
  /-- Whether a path leads to a regular file. -/
  isFile : String → m Bool
  /-- The names of everything directly inside a directory, in any order. -/
  entryNames : String → m (Except IoCause (List String))
  /-- Opens a file for reading. A directory can be opened, but not read. -/
  openSource : String → m (Except IoCause Input)
  /-- Reads a file to its end. -/
  read : Input → m Source
  /-- Makes an empty file, or empties the one that is there. -/
  create : String → m (Except IoCause Output)
  /-- Gives a file that was created its content. -/
  save : Output → ByteArray → m (Except IoCause Unit)
  /-- Removes a file if it can be removed. -/
  remove : String → m Unit
  /-- Takes note of events. -/
  record : Log → m Unit

end Jack
