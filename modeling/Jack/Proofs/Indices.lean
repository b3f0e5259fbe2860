/-
Places and indices.

A variable has a place: it is the first, the second or a later one of its kind in its tier. The
index that it gets is this place in 16 bits, and so is what a counter shows. As long as a scope has
no more than `2 ^ 16` variables of a kind, place and index are one number (`toNat_index`), and no
two variables of a kind have one index (`eq_of_index_eq`). Beyond that the indices start again, and
two variables share one.

Nothing that is said about commands needs the bound, since commands name variables by their
indices. It is needed wherever a variable is meant that is not to be mistaken for another one.
-/
import Mathlib.Data.List.Induction
import Jack.Proofs.Scope

set_option autoImplicit false

namespace Jack.Syntax

/-! ## Numbered variables -/

/-- A symbol without its number. -/
def Variable.ofSymbol (symbol : Symbol) : Variable := ⟨symbol.name, symbol.type, symbol.kind⟩

/-- Numbering changes no kinds, so there are as many variables of a kind as before. -/
theorem countP_numbered (vars : List Variable) (kind : VarKind) :
    (numbered vars).countP (·.kind = kind) = vars.countP (·.kind = kind) := by
  have hfold : ∀ tier : List Symbol, (vars.foldl addVariable tier).countP (·.kind = kind) =
      tier.countP (·.kind = kind) + vars.countP (·.kind = kind) := by
    induction vars with
    | nil => simp
    | cons added others ih =>
      intro tier
      rw [List.foldl_cons, ih]
      simp only [addVariable, List.countP_append, List.countP_cons, List.countP_nil]
      omega
  simpa [numbered] using hfold []

/-- The last variable is numbered by those in front of it. -/
theorem numbered_append_singleton (vars : List Variable) (added : Variable) :
    numbered (vars ++ [added]) = numbered vars ++
      [⟨added.name, added.type, added.kind, .ofNat (vars.countP (·.kind = added.kind))⟩] := by
  rw [numbered, List.foldl_append, List.foldl_cons, List.foldl_nil, ← numbered, addVariable,
    countP_numbered]

/-- Numbering adds the numbers and nothing else. -/
theorem map_ofSymbol_numbered (vars : List Variable) :
    (numbered vars).map Variable.ofSymbol = vars := by
  induction vars using List.reverseRecOn with
  | nil => rfl
  | append_singleton vars added ih =>
    rw [numbered_append_singleton, List.map_append, ih]
    rfl

/-- A numbered variable was declared with its kind. -/
theorem exists_mem_of_mem_numbered {vars : List Variable} {symbol : Symbol}
    (hmem : symbol ∈ numbered vars) : ∃ added ∈ vars, added.kind = symbol.kind := by
  refine ⟨Variable.ofSymbol symbol, ?_, rfl⟩
  rw [← map_ofSymbol_numbered vars]
  exact List.mem_map_of_mem hmem

/-- The index of a variable is the number of those of its kind in front of it, in 16 bits. -/
theorem index_eq {vars : List Variable} {front back : List Symbol} {symbol : Symbol}
    (hsplit : numbered vars = front ++ symbol :: back) :
    symbol.index = .ofNat (front.countP (·.kind = symbol.kind)) := by
  induction vars using List.reverseRecOn generalizing back with
  | nil => simp [numbered] at hsplit
  | append_singleton vars added ih =>
    rw [numbered_append_singleton] at hsplit
    -- the variable is the last one, or the last one stands behind it
    rcases List.eq_nil_or_concat back with rfl | ⟨rest, last, rfl⟩
    · obtain ⟨rfl, hsymbol⟩ := List.append_inj' hsplit rfl
      obtain rfl := List.cons.inj hsymbol |>.1
      rw [countP_numbered]
    · rw [List.concat_eq_append, ← List.cons_append, ← List.append_assoc] at hsplit
      exact ih (List.append_inj' hsplit rfl).1

/-! ## Few enough variables -/

/-- At most so many variables of each kind. -/
def AtMost (limit : Nat) (vars : List Variable) : Prop :=
  ∀ kind : VarKind, vars.countP (·.kind = kind) ≤ limit

instance (limit : Nat) (vars : List Variable) : Decidable (AtMost limit vars) :=
  decidable_of_iff (∀ kind ∈ [VarKind.static, .field, .argument, .localVar],
      vars.countP (·.kind = kind) ≤ limit)
    ⟨fun hlisted kind => hlisted kind (by cases kind <;> simp), fun hall kind _ => hall kind⟩

theorem AtMost.mono {limit larger : Nat} {vars : List Variable} (h : AtMost limit vars)
    (hle : limit ≤ larger) : AtMost larger vars :=
  fun kind => Nat.le_trans (h kind) hle

/-- At most so many variables of each kind in the class and in each of its subroutines. -/
structure ClassTree.AtMost (limit : Nat) (tree : ClassTree) : Prop where
  class_vars : Syntax.AtMost limit tree.vars
  subroutine_vars : ∀ subroutine ∈ tree.subroutines,
    Syntax.AtMost limit (subroutine.vars tree.name)

instance (limit : Nat) (tree : ClassTree) : Decidable (tree.AtMost limit) :=
  decidable_of_iff (Syntax.AtMost limit tree.vars ∧
      ∀ subroutine ∈ tree.subroutines, Syntax.AtMost limit (subroutine.vars tree.name))
    ⟨fun ⟨hclass, hsubroutines⟩ => ⟨hclass, hsubroutines⟩,
      fun ⟨hclass, hsubroutines⟩ => ⟨hclass, hsubroutines⟩⟩

theorem ClassTree.AtMost.mono {limit larger : Nat} {tree : ClassTree} (h : tree.AtMost limit)
    (hle : limit ≤ larger) : tree.AtMost larger :=
  ⟨h.class_vars.mono hle, fun subroutine hmem => (h.subroutine_vars subroutine hmem).mono hle⟩

section Few

variable {vars : List Variable} (hfew : AtMost UInt16.size vars)

include hfew

/-- Where 16 bits are enough, the index of a variable is its place. -/
theorem toNat_index {front back : List Symbol} {symbol : Symbol}
    (hsplit : numbered vars = front ++ symbol :: back) :
    symbol.index.toNat = front.countP (·.kind = symbol.kind) := by
  rw [index_eq hsplit]
  refine UInt16.toNat_ofNat_of_lt ?_
  -- the variable itself is one of its kind, so less than all of them stand in front of it
  have hall := hfew symbol.kind
  rw [← countP_numbered, hsplit, List.countP_append, List.countP_cons_of_pos (by simp)] at hall
  exact Nat.lt_of_lt_of_le (by omega) hall

/-- The variables of one kind are numbered from zero, in order. -/
theorem indices_numbered (kind : VarKind) :
    ((numbered vars).filter (·.kind = kind)).map (·.index.toNat) =
      List.range (vars.countP (·.kind = kind)) := by
  induction vars using List.reverseRecOn with
  | nil => rfl
  | append_singleton vars added ih =>
    have hfront : AtMost UInt16.size vars := by
      intro kind
      have hboth := hfew kind
      rw [List.countP_append] at hboth
      omega
    have hindex := toNat_index hfew (numbered_append_singleton vars added)
    rw [countP_numbered] at hindex
    rw [numbered_append_singleton, List.filter_append, List.map_append, ih hfront,
      List.countP_append]
    by_cases hkind : added.kind = kind
    · subst hkind
      simpa [List.range_succ] using hindex
    · simp [hkind]

/-- Two variables of one kind with one index are the same. -/
theorem eq_of_index_eq {a b : Symbol} (ha : a ∈ numbered vars) (hb : b ∈ numbered vars)
    (hkind : a.kind = b.kind) (hindex : a.index = b.index) : a = b := by
  have hnodup : (((numbered vars).filter (·.kind = b.kind)).map (·.index.toNat)).Nodup := by
    rw [indices_numbered hfew]
    exact List.nodup_range
  apply List.inj_on_of_nodup_map hnodup _ _ (congrArg UInt16.toNat hindex)
  · rw [List.mem_filter]
    exact ⟨ha, by simpa using hkind⟩
  · rw [List.mem_filter]
    exact ⟨hb, by simp⟩

end Few

/-! ## Places -/

namespace Scope

/-- How many variables of the same kind a tier has in front of a variable. -/
def place (scope : Scope) (symbol : Symbol) : Nat :=
  ((scope.tier symbol.kind).takeWhile (·.name ≠ symbol.name)).countP (·.kind = symbol.kind)

/-- The index of every variable that a name stands for is its place. -/
def Exact (scope : Scope) : Prop :=
  ∀ name symbol, scope.resolve? name = some symbol → symbol.index.toNat = scope.place symbol

end Scope

end Jack.Syntax
