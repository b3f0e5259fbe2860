/-
Compiling files and directories.

A source `Name.jack` is compiled into `Name.vm`, and dumped into `NameT.xml` if
tokens are asked for, next to the source or in a directory of one's choice. The
source is opened before the output is created, and read when it has been created.
An output whose making fails is removed if it can be. If it cannot, it holds what
had been made of it.
-/
import Jack.Compiler.Class
import Jack.Files.Path
import Jack.Files.Store
import Jack.TokenDump

set_option autoImplicit false

namespace Jack

/-- How to build. -/
structure BuildOptions where
  /-- Where outputs go; next to each source if there is no such directory. -/
  outDir : Option String := none
  /-- Whether to dump the tokens of each source too. -/
  tokens : Bool := false
  deriving DecidableEq, Repr

namespace Build

variable {m : Type → Type} [Monad m] [Store m]

/-- Runs an operation of the store whose failure ends the build. -/
def attempt {α : Type} (operation : m (Except IoCause α)) : ExceptT Error m α :=
  ExceptT.mk do
    match ← operation with
    | .ok value => return .ok value
    | .error cause => return .error (.io cause)

/-- Takes note of an event. -/
def note (event : LogEvent) : ExceptT Error m Unit := ExceptT.lift (Store.record #[event])

/-- The path of an output: the stem of the source with an ending. -/
def outputPath (source : String) (options : BuildOptions) (ending : String) :
    Except Error String :=
  match Path.stem? source with
  | none => .error (.io (.invalidFileName source))
  | some stem =>
    .ok (Path.join (options.outDir.getD (Path.directory source)) (stem ++ ending))

/-- Removes an output if making it failed. -/
def orRemove (target : String) (result : Except Error Unit) : ExceptT Error m Unit := do
  try
    ExceptT.mk (pure result)
  catch error =>
    ExceptT.lift (Store.remove target)
    throw error

/-- Dumps the tokens of a source; the result is the path of the dump. What the dump was made of
before an error is saved, too. -/
def dumpTokens (source : String) (options : BuildOptions) : ExceptT Error m String := do
  let target ← ExceptT.mk (pure (outputPath source options "T.xml"))
  note (.dumpingTokens source target)
  let input ← attempt (Store.openSource source)
  let output ← attempt (Store.create target)
  let (result, sink) := TokenDump.ofSource (← ExceptT.lift (Store.read input))
  let saved ← ExceptT.lift (Store.save output sink.bytes)
  orRemove target result
  -- a dump that was made to its end is not removed, even if it could not be saved
  ExceptT.mk (pure (saved.mapError .io))
  return target

/-- Compiles a source; the result is the path of the output. What was compiled before an error is
saved, too. -/
def compileFile (source : String) (options : BuildOptions) : ExceptT Error m String := do
  if !Path.isSource source then throw (.io (.notSource source))
  if options.tokens then
    let _ ← dumpTokens source options
  let target ← ExceptT.mk (pure (outputPath source options ".vm"))
  note (.compilingFile source target)
  let input ← attempt (Store.openSource source)
  let output ← attempt (Store.create target)
  let (result, compiler) := Compiler.run (← ExceptT.lift (Store.read input))
  ExceptT.lift (Store.record compiler.writer.log)
  let saved ← ExceptT.lift (Store.save output compiler.writer.sink.bytes)
  orRemove target (result.bind fun _ => saved.mapError .io)
  if some compiler.className ≠ Path.stem? source then
    note (.misnamedFile compiler.className source)
  return target

/-- The paths that lead to sources, out of some paths. -/
def selectSources : List String → ExceptT Error m (List String)
  | [] => return []
  | path :: rest => do
    let isFile ← ExceptT.lift (Store.isFile path)
    let sources ← selectSources rest
    return if isFile && Path.isSource path then path :: sources else sources

/-- The sources directly inside a directory, in order of their names. Only those
count that their path leads to: it may be too long although the directory's is
not. -/
def sourcesIn (directory : String) : ExceptT Error m (List String) := do
  let names ← attempt (Store.entryNames directory)
  let paths := (names.mergeSort fun a b => decide (a ≤ b)).map (Path.join directory)
  selectSources paths

/-- Compiles sources in order, up to the first that fails. -/
def compileFiles (options : BuildOptions) : List String → ExceptT Error m (List String)
  | [] => return []
  | source :: rest => do
    let target ← compileFile source options
    return target :: (← compileFiles options rest)

/-- Compiles a source, or every source directly inside a directory. -/
def compilePath (path : String) (options : BuildOptions) : ExceptT Error m (List String) := do
  if ← ExceptT.lift (Store.isDirectory path) then
    compileFiles options (← sourcesIn path)
  else compileFiles options [path]

end Build

end Jack
