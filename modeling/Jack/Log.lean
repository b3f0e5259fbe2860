/-
What a run has to tell while it works, as events.

An event is kept as data and only worded when somebody reads the log, so the
listing of a large symbol table costs nothing while nobody asks for it.
-/
import Jack.SymbolTable

set_option autoImplicit false

namespace Jack

/-- How important an event is. -/
inductive LogLevel where
  | trace
  | debug
  | info
  | warn
  deriving DecidableEq, Repr

namespace LogLevel

/-- The name of a level. -/
def name : LogLevel → String
  | trace => "TRACE"
  | debug => "DEBUG"
  | info => "INFO"
  | warn => "WARN"

/-- The weight of a level: a heavier one is more important. -/
def severity : LogLevel → Nat
  | trace => 0
  | debug => 1
  | info => 2
  | warn => 3

end LogLevel

/-- Something worth telling about a run. -/
inductive LogEvent where
  /-- The name of the class has been read. -/
  | compilingClass (name : String)
  /-- The declarations of a subroutine have been read. `keyword` is the word that
  introduces it. -/
  | compilingSubroutine (keyword name : String) (locals : Nat)
  /-- The variables that the body of a subroutine sees. -/
  | symbolsOf (subroutine : String) (table : SymbolTable)
  /-- A line is about to be written. -/
  | writing (line : String)
  /-- A token dump is about to be made. -/
  | dumpingTokens (source target : String)
  /-- A file is about to be compiled. -/
  | compilingFile (source target : String)
  /-- A file holds a class of another name. -/
  | misnamedFile (className source : String)

namespace LogEvent

/-- The importance of an event. -/
def level : LogEvent → LogLevel
  | compilingClass .. | compilingSubroutine .. | symbolsOf .. => .debug
  | writing _ => .trace
  | dumpingTokens .. | compilingFile .. => .info
  | misnamedFile .. => .warn

/-- The wording of an event. -/
def message : LogEvent → String
  | compilingClass name => "compiling class `" ++ name ++ "`"
  | compilingSubroutine keyword name locals =>
    "compiling " ++ keyword ++ " `" ++ name ++ "` with " ++ toString locals ++ " locals"
  | symbolsOf subroutine table => "symbols of `" ++ subroutine ++ "`: " ++ table.render
  | writing line => line
  | dumpingTokens source target => "dumping tokens " ++ source ++ " -> " ++ target
  | compilingFile source target => "compiling " ++ source ++ " -> " ++ target
  | misnamedFile className source =>
    "class `" ++ className ++ "` is declared in `" ++ source ++ "`"

end LogEvent

/-- The events of a run in order. -/
abbrev Log := Array LogEvent

/-- The events that are at least as important as a level. -/
def Log.atLeast (log : Log) (level : LogLevel) : List LogEvent :=
  log.toList.filter fun event => decide (level.severity ≤ event.level.severity)

end Jack
