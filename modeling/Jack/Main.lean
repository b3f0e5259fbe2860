/-
The program: the command line on the disk of the machine.
-/
import Jack.CommandLine

set_option autoImplicit false

namespace Jack

/-- What an error of the machine means for a build. The number of an error comes
with either sign. -/
def IoCause.ofError : IO.Error → IoCause
  | .noFileOrDirectory .. => .notFound
  | .permissionDenied .. => .permissionDenied
  | .inappropriateType _ code _ =>
    if code = 21 || code = 0 - 21 then .isDirectory else .notDirectory
  | error => .other (toString error)

/-- Runs an operation of the machine. -/
def guarded {α : Type} (operation : IO α) : IO (Except IoCause α) := do
  try
    return .ok (← operation)
  catch error =>
    return .error (.ofError error)

/-- Whether a path leads to a directory of the machine. -/
def onDirectory (path : String) : IO Bool := do
  try
    (← IO.FS.realPath path).isDir
  catch _ => return false

/-- Whether a path leads to a regular file of the machine. -/
def onFile (path : String) : IO Bool := do
  try
    return (← (← IO.FS.realPath path).metadata).type == .file
  catch _ => return false

/-- The names of everything in a directory of the machine. -/
def listEntries (path : String) : IO (List String) := do
  let entries ← (← IO.FS.realPath path).readDir
  return entries.toList.map (·.fileName)

/-- Reads a file of the machine to its end. -/
def readToEnd (handle : IO.FS.Handle) : IO Source := do
  match ← guarded handle.readBinToEnd with
  | .ok bytes => return Source.ofBytes bytes.data.toList
  | .error cause => return Source.unreadable cause

/-- Writes a whole file of the machine. -/
def writeWhole (handle : IO.FS.Handle) (content : ByteArray) : IO Unit := do
  handle.write content
  handle.flush

instance : Store IO where
  Input := IO.FS.Handle
  Output := IO.FS.Handle
  isDirectory := onDirectory
  isFile := onFile
  entryNames path := guarded (listEntries path)
  openSource path := guarded (IO.FS.Handle.mk path .read)
  read := readToEnd
  create path := guarded (IO.FS.Handle.mk path .write)
  save output content := guarded (writeWhole output content)
  remove path := do
    let _ ← guarded (IO.FS.removeFile path)
  record _ := return

end Jack

def main (arguments : List String) : IO UInt32 := do
  let outcome ← Jack.CommandLine.run (m := IO) arguments
  (← IO.getStdout).putStr outcome.output
  (← IO.getStderr).putStr outcome.errors
  return outcome.code.toUInt32
