/-
The variables of a class, in two tiers.

Statics and fields live as long as the table; arguments and locals only until
the next subroutine is started. A name may be declared once per tier, and one
that is declared in both means the argument or local. Each kind counts its
variables, and the count at its declaration is a variable's index in the memory
segment of its kind.

The counters have 16 bits and start again from zero when they overflow. With more
than 65536 variables of a kind in a scope, two of them have one index.
-/
import Std.Data.TreeMap
import Jack.Error
import Jack.Vm.Command

set_option autoImplicit false

namespace Jack

/-! ## Kinds of variables -/

/-- The four kinds of variable, in the order a table lists them. -/
inductive VarKind where
  | static
  | field
  | argument
  | localVar
  deriving DecidableEq, Repr

namespace VarKind

/-- The name of a kind. -/
def name : VarKind → String
  | static => "Static"
  | field => "Field"
  | argument => "Argument"
  | localVar => "Local"

/-- The place of a kind in the order of kinds. -/
def rank : VarKind → Nat
  | static => 0
  | field => 1
  | argument => 2
  | localVar => 3

/-- Whether variables of a kind belong to the class rather than to one of its
subroutines. -/
def isClassTier : VarKind → Bool
  | static | field => true
  | argument | localVar => false

/-- The memory segment that holds the variables of a kind. -/
def segment : VarKind → Vm.Segment
  | static => .static
  | field => .this
  | argument => .argument
  | localVar => .localVar

end VarKind

/-! ## Symbols -/

/-- A counter is used as the number that it shows. -/
instance coeCounter : Coe UInt16 Nat := ⟨UInt16.toNat⟩

/-- A declared variable. -/
structure Symbol where
  name : String
  type : String
  kind : VarKind
  index : UInt16
  deriving DecidableEq, Repr

namespace Symbol

/-- What is known of a variable, apart from its name. -/
def render (symbol : Symbol) : String :=
  "(" ++ symbol.type ++ ", " ++ symbol.kind.name ++ ", " ++ toString symbol.index ++ ")"

/-- A variable as a table lists it. -/
def entry (symbol : Symbol) : String := symbol.name ++ " -> " ++ symbol.render

/-- The order of variables in a listing: by kind, then by index. -/
def precedes (a b : Symbol) : Bool :=
  decide (a.kind.rank < b.kind.rank) ||
    (decide (a.kind.rank = b.kind.rank) && decide (a.index ≤ b.index))

end Symbol

/-! ## Tables -/

/-- The variables that are visible at one place of a class. -/
structure SymbolTable where
  /-- Statics and fields by name. -/
  classTier : Std.TreeMap String Symbol := {}
  /-- Arguments and locals of the current subroutine by name. -/
  subroutineTier : Std.TreeMap String Symbol := {}
  statics : UInt16 := 0
  fields : UInt16 := 0
  arguments : UInt16 := 0
  locals : UInt16 := 0

namespace SymbolTable

/-- The counter of a kind: how many live variables it has, up to overflow. -/
def count (table : SymbolTable) : VarKind → UInt16
  | .static => table.statics
  | .field => table.fields
  | .argument => table.arguments
  | .localVar => table.locals

/-- The tier that variables of a kind are declared in. -/
def tier (table : SymbolTable) (kind : VarKind) : Std.TreeMap String Symbol :=
  if kind.isClassTier then table.classTier else table.subroutineTier

/-- Forgets the arguments and locals. -/
def startSubroutine (table : SymbolTable) : SymbolTable :=
  { table with subroutineTier := {}, arguments := 0, locals := 0 }

/-- Adds a variable that its tier does not hold yet. -/
def insert (table : SymbolTable) (symbol : Symbol) : SymbolTable :=
  match symbol.kind with
  | .static =>
    { table with
      classTier := table.classTier.insert symbol.name symbol
      statics := table.statics + 1 }
  | .field =>
    { table with
      classTier := table.classTier.insert symbol.name symbol
      fields := table.fields + 1 }
  | .argument =>
    { table with
      subroutineTier := table.subroutineTier.insert symbol.name symbol
      arguments := table.arguments + 1 }
  | .localVar =>
    { table with
      subroutineTier := table.subroutineTier.insert symbol.name symbol
      locals := table.locals + 1 }

/-- Declares a variable with the next index of its kind. A name that the tier
already holds is refused before anything is written. -/
def declare (name type : String) (kind : VarKind) : EStateM Error SymbolTable Symbol := fun table =>
  if (table.tier kind).contains name then .error (.duplicateName none name) table
  else
    -- the counter is read before it is raised, so the first index is zero
    let symbol : Symbol := ⟨name, type, kind, table.count kind⟩
    .ok symbol (table.insert symbol)

/-- A declaration for a caller that goes on with the table only if it was taken. -/
def define (table : SymbolTable) (name type : String) (kind : VarKind) :
    Except Error (Symbol × SymbolTable) :=
  match declare name type kind table with
  | .ok symbol table => .ok (symbol, table)
  | .error error _ => .error error

/-- The variable a name stands for: an argument or local before a static or
field. A name without a variable is the name of a class. -/
def resolve? (table : SymbolTable) (name : String) : Option Symbol :=
  table.subroutineTier[name]? <|> table.classTier[name]?

/-- The live variables, statics first, then fields, arguments and locals, each
kind in the order of declaration. -/
def symbols (table : SymbolTable) : List Symbol :=
  (table.classTier.values ++ table.subroutineTier.values).mergeSort Symbol.precedes

/-- The listing of a table. -/
def render (table : SymbolTable) : String :=
  "\x7b" ++ String.intercalate ", " (table.symbols.map Symbol.entry) ++ "\x7d"

end SymbolTable

end Jack
