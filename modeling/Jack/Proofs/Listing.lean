/-
The listing of a symbol table.

To list a table one goes through the entries of its two maps, in whatever order these give them,
and sorts what was found by kind and index. Names are not compared, so two variables of one kind
and one index would come out in the order of the maps, and the text would not be determined by the
table. No two live variables are such a pair, in one tier or in both, because each kind belongs to
one tier and counts its variables (`Syntax.eq_of_index_eq`), and its counter has room for them.

What the text is can then be said without a table. The live variables of one kind have ascending
indices in the order of their definitions, so the kinds one after the other are the only sorted
arrangement of them (`eq_inTurn`).
-/
import Jack.Proofs.Declarations

set_option autoImplicit false

namespace Jack

/-! ## The order of a listing -/

namespace Symbol

theorem precedes_iff {a b : Symbol} :
    a.precedes b = true ↔
      a.kind.rank < b.kind.rank ∨
        a.kind.rank = b.kind.rank ∧ a.index.toNat ≤ b.index.toNat := by
  simp [precedes, UInt16.le_iff_toNat_le]

theorem precedes_trans (a b c : Symbol) (hab : a.precedes b = true) (hbc : b.precedes c = true) :
    a.precedes c = true := by
  rw [precedes_iff] at *
  omega

theorem precedes_total (a b : Symbol) : (a.precedes b || b.precedes a) = true := by
  rw [Bool.or_eq_true, precedes_iff, precedes_iff]
  omega

end Symbol

theorem VarKind.rank_inj {kind other : VarKind} (h : kind.rank = other.rank) : kind = other := by
  cases kind <;> cases other <;> first | rfl | cases h

namespace SymbolTable

open Syntax

/-! ## Going through the entries -/

/-- An entry of a map as a listing shows it: the name is the one it is found by. -/
def entryText (entry : String × Symbol) : String := entry.1 ++ " -> " ++ entry.2.render

/-- The listing that comes of going through the entries of the two maps in these orders. Entries
of one kind and one index would stay in the order in which they were found. -/
def listingOf (classEntries subroutineEntries : List (String × Symbol)) : String :=
  let sorted := (classEntries ++ subroutineEntries).mergeSort fun a b => a.2.precedes b.2
  "\x7b" ++ String.intercalate ", " (sorted.map entryText) ++ "\x7d"

/-! ## The variables in turn -/

/-- The live variables of one kind with their indices, in the order of their definitions. -/
def ofKind (vars : List Variable) (kind : VarKind) : List Symbol :=
  (numbered vars).filter (·.kind = kind)

/-- The live variables, kind by kind. -/
def inTurn (vars : List Variable) : List Symbol :=
  ofKind vars .static ++ ofKind vars .field ++ ofKind vars .argument ++ ofKind vars .localVar

/-- The listing of some live variables. -/
def listing (vars : List Variable) : String :=
  "\x7b" ++ String.intercalate ", " ((inTurn vars).map Symbol.entry) ++ "\x7d"

theorem kind_of_mem_ofKind {vars : List Variable} {kind : VarKind} {symbol : Symbol}
    (hmem : symbol ∈ ofKind vars kind) : symbol.kind = kind :=
  of_decide_eq_true (List.mem_filter.1 hmem).2

/-- The indices of one kind ascend, if 16 bits are enough for them. -/
theorem pairwise_ofKind {vars : List Variable} (hfew : AtMost UInt16.size vars) (kind : VarKind) :
    (ofKind vars kind).Pairwise fun a b => a.precedes b = true := by
  -- the indices of a kind are `0, 1, 2, …` in the order of the definitions
  have hindices : ((ofKind vars kind).map (·.index.toNat)).Pairwise (· < ·) := by
    rw [ofKind, indices_numbered hfew]
    exact List.pairwise_lt_range
  rw [List.pairwise_map] at hindices
  refine hindices.imp_of_mem fun ha hb hless => ?_
  rw [Symbol.precedes_iff, kind_of_mem_ofKind ha, kind_of_mem_ofKind hb]
  exact .inr ⟨rfl, Nat.le_of_lt hless⟩

/-- A kind comes before the kinds behind it. -/
theorem precedes_of_rank_lt {vars : List Variable} {kind other : VarKind} {a b : Symbol}
    (ha : a ∈ ofKind vars kind) (hb : b ∈ ofKind vars other) (hrank : kind.rank < other.rank) :
    a.precedes b = true := by
  rw [Symbol.precedes_iff, kind_of_mem_ofKind ha, kind_of_mem_ofKind hb]
  exact .inl hrank

/-- The variables in turn are sorted. -/
theorem pairwise_inTurn {vars : List Variable} (hfew : AtMost UInt16.size vars) :
    (inTurn vars).Pairwise fun a b => a.precedes b = true := by
  have hsorted := pairwise_ofKind hfew
  rw [inTurn, List.pairwise_append, List.pairwise_append, List.pairwise_append]
  refine ⟨⟨⟨hsorted _, hsorted _, ?_⟩, hsorted _, ?_⟩, hsorted _, ?_⟩
  · exact fun a ha b hb => precedes_of_rank_lt ha hb (by decide)
  · intro a ha b hb
    rcases List.mem_append.1 ha with ha | ha <;> exact precedes_of_rank_lt ha hb (by decide)
  · intro a ha b hb
    rcases List.mem_append.1 ha with ha | ha
    · rcases List.mem_append.1 ha with ha | ha <;> exact precedes_of_rank_lt ha hb (by decide)
    · exact precedes_of_rank_lt ha hb (by decide)

theorem count_ofKind (vars : List Variable) (kind : VarKind) (symbol : Symbol) :
    (ofKind vars kind).count symbol =
      if symbol.kind = kind then (numbered vars).count symbol else 0 := by
  by_cases hkind : symbol.kind = kind
  · rw [if_pos hkind, ofKind, List.count_filter (by simpa using hkind)]
  · rw [if_neg hkind, List.count_eq_zero]
    exact fun hmem => hkind (kind_of_mem_ofKind hmem)

/-- Every live variable has its turn, and has it once. -/
theorem inTurn_perm (vars : List Variable) : (inTurn vars).Perm (numbered vars) := by
  rw [List.perm_iff_count]
  intro symbol
  rw [inTurn, List.count_append, List.count_append, List.count_append]
  simp only [count_ofKind]
  cases symbol.kind <;> simp

/-- **One arrangement.** The live variables can be sorted in one way only. -/
theorem eq_inTurn {vars : List Variable} {symbols : List Symbol} (hfew : AtMost UInt16.size vars)
    (hperm : symbols.Perm (numbered vars))
    (hsorted : symbols.Pairwise fun a b => a.precedes b = true) : symbols = inTurn vars := by
  have hall := hperm.trans (inTurn_perm vars).symm
  -- two sorted arrangements agree where the order is antisymmetric, and it is on live variables:
  -- kind and index determine one
  refine List.Perm.eq_of_pairwise ?_ hsorted (pairwise_inTurn hfew) hall
  intro a b ha hb hab hba
  rw [Symbol.precedes_iff] at hab hba
  have hkind : a.kind = b.kind := VarKind.rank_inj (by omega)
  exact eq_of_index_eq hfew (hperm.subset ha) ((inTurn_perm vars).subset hb) hkind
    (UInt16.toNat.inj (by omega))

/-! ## Tables -/

namespace Kept

variable {table : SymbolTable} {vars : List Variable}

/-- The name that an entry is found by is the name of its variable. -/
theorem name_of_mem_toList (h : Kept table vars) (kind : VarKind) {entry : String × Symbol}
    (hmem : entry ∈ (table.tier kind).toList) : entry.2.name = entry.1 := by
  have hfound := Std.TreeMap.mem_toList_iff_getElem?_eq_some.1 hmem
  rw [h.represents.find] at hfound
  simpa using List.find?_some hfound

/-- Sorting the entries in any order sorts the live variables. -/
theorem sorted_eq (h : Kept table vars) (hfew : AtMost UInt16.size vars)
    {classEntries subroutineEntries : List (String × Symbol)}
    (hclass : classEntries.Perm table.classTier.toList)
    (hsubroutine : subroutineEntries.Perm table.subroutineTier.toList) :
    ((classEntries ++ subroutineEntries).mergeSort fun a b => a.2.precedes b.2).map Prod.snd =
      inTurn vars := by
  have hvalues : ((classEntries ++ subroutineEntries).map Prod.snd).Perm (numbered vars) := by
    refine ((hclass.append hsubroutine).map Prod.snd).trans ?_
    rw [List.map_append, ← values_eq, ← values_eq]
    exact (List.mergeSort_perm _ _).symm.trans h.symbols_perm
  rw [List.map_mergeSort (s := Symbol.precedes) fun _ _ _ _ => rfl]
  exact eq_inTurn hfew ((List.mergeSort_perm _ _).trans hvalues)
    (List.pairwise_mergeSort Symbol.precedes_trans Symbol.precedes_total _)

/-- Whatever the orders of the entries, the live variables are listed in turn. -/
theorem listingOf_eq (h : Kept table vars) (hfew : AtMost UInt16.size vars)
    {classEntries subroutineEntries : List (String × Symbol)}
    (hclass : classEntries.Perm table.classTier.toList)
    (hsubroutine : subroutineEntries.Perm table.subroutineTier.toList) :
    listingOf classEntries subroutineEntries = listing vars := by
  -- an entry shows its key, a symbol its name, and in a table that is kept they are the same
  have htext : ∀ entry ∈ (classEntries ++ subroutineEntries).mergeSort
      fun a b => a.2.precedes b.2, entryText entry = entry.2.entry := by
    intro entry hmem
    have hname : entry.2.name = entry.1 := by
      rcases List.mem_append.1 ((List.mergeSort_perm _ _).subset hmem) with hfound | hfound
      · exact h.name_of_mem_toList .static (hclass.subset hfound)
      · exact h.name_of_mem_toList .localVar (hsubroutine.subset hfound)
    rw [entryText, Symbol.entry, hname]
  rw [listingOf, listing, ← h.sorted_eq hfew hclass hsubroutine, List.map_map,
    List.map_congr_left htext]
  rfl

/-- A table is listed as if its maps were gone through in one of these orders. -/
theorem render_eq (h : Kept table vars) (hfew : AtMost UInt16.size vars) :
    table.render = listing vars := by
  have hsymbols : table.symbols = inTurn vars := eq_inTurn hfew h.symbols_perm
    (List.pairwise_mergeSort Symbol.precedes_trans Symbol.precedes_total _)
  rw [render, listing, hsymbols]

end Kept

/-- **One text for a table.** Whatever definitions and starts of subroutines an empty table went
through, and in whatever orders its two maps give their entries, the listing is the same text: the
variables that the changes leave live, each once, kind by kind and each kind in the order of its
definitions. The counters must have room for the live variables. -/
theorem listing_ignores_order (changes : List Change) (hfew : AtMost 65535 (live changes))
    {classEntries subroutineEntries : List (String × Symbol)}
    (hclass : classEntries.Perm (changedAll changes).classTier.toList)
    (hsubroutine : subroutineEntries.Perm (changedAll changes).subroutineTier.toList) :
    listingOf classEntries subroutineEntries = listing (live changes) ∧
      (changedAll changes).render = listing (live changes) ∧
      (inTurn (live changes)).Perm (numbered (live changes)) := by
  have h := kept_changedAll changes
  have hindexed : AtMost UInt16.size (live changes) := hfew.mono (by decide)
  exact ⟨h.listingOf_eq hindexed hclass hsubroutine, h.render_eq hindexed, inTurn_perm _⟩

/-- A field that a local hides, and a subroutine that is left again. -/
def shadowing : List Change :=
  [.define "x" "int" .field, .define "s" "char" .static, .define "y" "A" .field, .startSubroutine,
    .define "gone" "int" .argument, .startSubroutine, .define "x" "char" .localVar,
    .define "b" "int" .argument]

/-- The entries of its maps, neither by name nor in turn. -/
def shadowingClass : List (String × Symbol) :=
  [("y", ⟨"y", "A", .field, 1⟩), ("x", ⟨"x", "int", .field, 0⟩),
    ("s", ⟨"s", "char", .static, 0⟩)]

def shadowingSubroutine : List (String × Symbol) :=
  [("x", ⟨"x", "char", .localVar, 0⟩), ("b", ⟨"b", "int", .argument, 0⟩)]

theorem listing_ignores_order_shadowing :
    listingOf shadowingClass shadowingSubroutine = listing (live shadowing) ∧
      (changedAll shadowing).render = listing (live shadowing) ∧
      (inTurn (live shadowing)).Perm (numbered (live shadowing)) ∧
      listing (live shadowing) = "\x7bs -> (char, Static, 0), x -> (int, Field, 0), " ++
        "y -> (A, Field, 1), b -> (int, Argument, 0), x -> (char, Local, 0)\x7d" := by
  have hclass : shadowingClass.Perm (changedAll shadowing).classTier.toList := by decide +kernel
  have hsubroutine : shadowingSubroutine.Perm (changedAll shadowing).subroutineTier.toList := by
    decide +kernel
  obtain ⟨hlisting, hrender, hperm⟩ := listing_ignores_order shadowing (by decide) hclass hsubroutine
  exact ⟨hlisting, hrender, hperm, by decide +kernel⟩

end SymbolTable

end Jack
