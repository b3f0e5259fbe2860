/-
The command line.

Arguments are read from left to right. An option that is unknown, given twice or
without its value, a second path and an empty path or value are misuse; asking for
the version or for help is answered at once, whatever follows. Behind `--`
everything is a path.
-/
import Jack.Build

set_option autoImplicit false

namespace Jack

/-- What a command line asks for. -/
inductive Request where
  | compile (path : String) (options : BuildOptions)
  | version
  | help
  deriving DecidableEq, Repr

namespace Request

/-- What has been read of a command line. -/
structure Given where
  path : Option String := none
  options : BuildOptions := {}
  deriving DecidableEq, Repr

/-- Adds a path. -/
def Given.withPath (given : Given) (path : String) : Option Given :=
  if path.isEmpty || given.path.isSome then none else some { given with path := some path }

/-- Adds the directory for outputs. -/
def Given.withOutDir (given : Given) (directory : String) : Option Given :=
  if directory.isEmpty || given.options.outDir.isSome then none
  else some { given with options := { given.options with outDir := some directory } }

/-- Adds the wish for a token dump. -/
def Given.withTokens (given : Given) : Option Given :=
  if given.options.tokens then none
  else some { given with options := { given.options with tokens := true } }

/-- The request that a whole command line makes. -/
def Given.request (given : Given) : Option Request :=
  given.path.map fun path => .compile path given.options

/-- Reads arguments that are all paths. -/
def parsePaths (given : Given) : List String → Option Request
  | [] => given.request
  | argument :: rest => do parsePaths (← given.withPath argument) rest

/-- One argument, by its form. -/
inductive Argument where
  | path (path : String)
  | endOfOptions
  | tokens
  /-- The directory for outputs is the next argument. -/
  | outDir
  /-- The directory for outputs is part of the argument. -/
  | outDirIs (directory : String)
  | version
  | help
  | unknown
  deriving DecidableEq, Repr

/-- The form of an argument. -/
def Argument.ofText (text : String) : Argument :=
  match text.toList with
  | ['-'] => .path text
  | ['-', '-'] => .endOfOptions
  | '-' :: '-' :: name =>
    match name.span (· != '=') with
    | (name, []) =>
      match String.ofList name with
      | "tokens" => .tokens
      | "out-dir" => .outDir
      | "version" => .version
      | "help" => .help
      | _ => .unknown
    | (name, _ :: value) =>
      if String.ofList name = "out-dir" then .outDirIs (String.ofList value) else .unknown
  | '-' :: 'V' :: _ => .version
  | '-' :: 'h' :: _ => .help
  | '-' :: _ => .unknown
  | _ => .path text

/-- Reads arguments behind those already given. -/
def parseFrom (given : Given) : List String → Option Request
  | [] => given.request
  | argument :: rest =>
    match Argument.ofText argument, rest with
    | .path path, rest => do parseFrom (← given.withPath path) rest
    | .endOfOptions, rest => parsePaths given rest
    | .tokens, rest => do parseFrom (← given.withTokens) rest
    | .outDir, value :: rest =>
      match Argument.ofText value with
      -- a value that looks like an option is not taken for a directory
      | .path directory => do parseFrom (← given.withOutDir directory) rest
      | _ => none
    | .outDir, [] => none
    | .outDirIs directory, rest => do parseFrom (← given.withOutDir directory) rest
    | .version, _ => some .version
    | .help, _ => some .help
    | .unknown, _ => none

/-- The request that arguments make; `none` if they are misused. -/
def parse (arguments : List String) : Option Request := parseFrom {} arguments

end Request

/-! ## Answers -/

/-- What the program prints and how it ends. -/
structure Outcome where
  code : Nat
  output : String := ""
  errors : String := ""
  deriving DecidableEq, Repr

namespace CommandLine

/-- The name and number that the program answers for its version. -/
def version : String := "jack_lang 0.1.0"

/-- How the program is called. -/
def usage : String := "Usage: jackc [--out-dir <DIR>] [--tokens] <PATH>"

/-- The outcome of a build: the outputs one to a line, or the error. -/
def report (path : String) : Except Error (List String) → Outcome
  | .ok targets => { code := 0, output := String.join (targets.map (· ++ "\n")) }
  | .error error =>
    { code := 1, errors := "Error compiling " ++ path ++ ": " ++ error.message ++ "\n" }

/-- Answers a command line. -/
def run {m : Type → Type} [Monad m] [Store m] (arguments : List String) : m Outcome := do
  match Request.parse arguments with
  | none => return { code := 2, errors := usage ++ "\n" }
  | some .version => return { code := 0, output := version ++ "\n" }
  | some .help => return { code := 0, output := usage ++ "\n" }
  | some (.compile path options) => return report path (← (Build.compilePath path options).run)

end CommandLine

end Jack
