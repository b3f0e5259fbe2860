/-
What a symbol table holds, told from the declarations behind it.

A table is filled by changes: definitions, some of which are refused, and starts of subroutines,
which forget the arguments and locals. What it has to hold then can be said without a table, by
going through the same changes with a plain list: `live` keeps the variables that were taken and
not forgotten, in the order of their definitions. This file ties the two together, for the maps
and the counters at once (`Kept`), and reads the properties of a table off the list.

A definition that is taken adds one variable to the list, one entry to the map of its tier and
one to the counter of its kind. These three stay in step because the index of the new entry is
the number of live variables of its kind, on both sides. That no index is given twice is then a
fact about lists alone (`indices_numbered`), as long as the counters have room for the numbers.
-/
import Mathlib.Data.List.Perm.Basic
import Jack.Proofs.CompiledClass

set_option autoImplicit false

namespace Jack

/-- Every kind of variable has a segment of its own. -/
theorem VarKind.segment_inj {kind other : VarKind} (h : kind.segment = other.segment) :
    kind = other := by
  cases kind <;> cases other <;> first | rfl | cases h

namespace SymbolTable

open Syntax

/-! ## Changes of a table -/

/-- A change of a table. -/
inductive Change where
  | define (name type : String) (kind : VarKind)
  | startSubroutine
  deriving DecidableEq, Repr

/-- The table that a declaration leaves behind, taken or refused. -/
def behindDeclare : EStateM.Result Error SymbolTable Symbol → SymbolTable
  | .ok _ reached => reached
  | .error _ reached => reached

/-- The table behind a change. -/
def changed (table : SymbolTable) : Change → SymbolTable
  | .define name type kind => behindDeclare (declare name type kind table)
  | .startSubroutine => table.startSubroutine

/-- The table behind some changes of an empty one. -/
def changedAll (changes : List Change) : SymbolTable := changes.foldl changed {}

/-! ## Declarations without a table -/

/-- Whether a name is taken in the tier of a kind. -/
def Taken (vars : List Variable) (name : String) (kind : VarKind) : Prop :=
  ∃ declared ∈ vars, declared.kind.isClassTier = kind.isClassTier ∧ declared.name = name

instance (vars : List Variable) (name : String) (kind : VarKind) :
    Decidable (Taken vars name kind) :=
  inferInstanceAs (Decidable (∃ declared ∈ vars,
    declared.kind.isClassTier = kind.isClassTier ∧ declared.name = name))

/-- The live variables behind a change: one more for a definition whose name is not taken, and
only statics and fields when a subroutine starts. -/
def liveBehind (vars : List Variable) : Change → List Variable
  | .define name type kind => if Taken vars name kind then vars else vars ++ [⟨name, type, kind⟩]
  | .startSubroutine => vars.filter (·.kind.isClassTier = true)

/-- The variables that some changes leave live, in the order of their definitions. -/
def live (changes : List Change) : List Variable := changes.foldl liveBehind []

/-- The live variables of one of the two tiers, each with the number of live variables of its
kind before it. -/
def liveTier (vars : List Variable) (classTier : Bool) : List Symbol :=
  (numbered vars).filter (·.kind.isClassTier = classTier)

/-- The variables of a kind are counted in their tier as they are among all of them. -/
theorem countP_liveTier (vars : List Variable) (kind : VarKind) :
    (liveTier vars kind.isClassTier).countP (·.kind = kind) = vars.countP (·.kind = kind) := by
  rw [← countP_numbered, liveTier, List.countP_filter]
  apply List.countP_congr
  intro symbol _
  simp only [Bool.and_eq_true, decide_eq_true_eq]
  exact ⟨fun hboth => hboth.1, fun hkind => ⟨hkind, by rw [hkind]⟩⟩

theorem liveTier_append (vars : List Variable) (added : Variable) (classTier : Bool) :
    liveTier (vars ++ [added]) classTier =
      if added.kind.isClassTier = classTier then addVariable (liveTier vars classTier) added
      else liveTier vars classTier := by
  rw [liveTier, numbered_append_singleton, List.filter_append, ← liveTier]
  by_cases hkind : added.kind.isClassTier = classTier
  · subst hkind
    rw [if_pos rfl, addVariable, countP_liveTier]
    simp
  · rw [if_neg hkind]
    simp [hkind]

/-- Forgetting the variables of one tier leaves the numbers of the other one. -/
theorem numbered_filter (vars : List Variable) (classTier : Bool) :
    numbered (vars.filter (·.kind.isClassTier = classTier)) = liveTier vars classTier := by
  induction vars using List.reverseRecOn with
  | nil => rfl
  | append_singleton vars added ih =>
    rw [liveTier_append, List.filter_append]
    by_cases hkind : added.kind.isClassTier = classTier
    · rw [if_pos hkind, ← ih, List.filter_cons_of_pos (by simpa using hkind), numbered,
        List.foldl_append]
      rfl
    · rw [if_neg hkind, List.filter_cons_of_neg (by simpa using hkind), List.filter_nil,
        List.append_nil, ih]

/-- Where only statics and fields are live, the subroutine tier is empty. -/
theorem liveTier_filter (vars : List Variable) (classTier : Bool) :
    liveTier (vars.filter (·.kind.isClassTier = true)) classTier =
      if classTier then liveTier vars true else [] := by
  rw [liveTier, numbered_filter, liveTier, List.filter_filter]
  cases classTier with
  | true => simp
  | false =>
    rw [if_neg Bool.false_ne_true, List.filter_eq_nil_iff]
    intro symbol _
    simp

/-- A name is taken exactly when a variable of the tier has it. -/
theorem taken_iff {vars : List Variable} {name : String} {kind : VarKind} :
    Taken vars name kind ↔ ∃ symbol ∈ liveTier vars kind.isClassTier, symbol.name = name := by
  have hvars := map_ofSymbol_numbered vars
  constructor
  · rintro ⟨declared, hmem, hkind, hname⟩
    rw [← hvars] at hmem
    obtain ⟨symbol, hsymbol, rfl⟩ := List.mem_map.1 hmem
    refine ⟨symbol, List.mem_filter.2 ⟨hsymbol, ?_⟩, hname⟩
    rw [decide_eq_true_eq]
    exact hkind
  · rintro ⟨symbol, hmem, hname⟩
    obtain ⟨hsymbol, hkind⟩ := List.mem_filter.1 hmem
    rw [decide_eq_true_eq] at hkind
    refine ⟨Variable.ofSymbol symbol, ?_, hkind, hname⟩
    rw [← hvars]
    exact List.mem_map_of_mem hsymbol

/-! ## The entries of a map -/

theorem values_eq (tier : Std.TreeMap String Symbol) : tier.values = tier.toList.map Prod.snd := by
  have hfold : tier.values = tier.foldr (fun _ symbol rest => symbol :: rest) [] := rfl
  rw [hfold, Std.TreeMap.foldr_eq_foldr_toList]
  induction tier.toList with
  | nil => rfl
  | cons entry rest ih => rw [List.foldr_cons, ih, List.map_cons]

/-- A name that is new to a map adds one entry to it. -/
theorem values_insert {tier : Std.TreeMap String Symbol} {name : String}
    (hnew : tier.contains name = false) (symbol : Symbol) :
    (tier.insert name symbol).values.Perm (symbol :: tier.values) := by
  have hkept : tier.toList.filter (fun entry => decide ¬(name == entry.1) = true) = tier.toList := by
    rw [List.filter_eq_self]
    rintro ⟨other, found⟩ hmem
    have hother := Std.TreeMap.mem_toList_iff_getElem?_eq_some.1 hmem
    have hne : name ≠ other := by
      rintro rfl
      rw [Std.TreeMap.contains_eq_isSome_getElem?, hother] at hnew
      cases hnew
    simpa using hne
  have hinsert : (tier.insert name symbol).toList.Perm ((name, symbol) :: tier.toList) := by
    rw [← hkept]
    exact Std.TreeMap.toList_insert_perm
  rw [values_eq, values_eq]
  exact hinsert.map Prod.snd

/-- A new variable goes to the map of its tier. -/
theorem tier_insert (table : SymbolTable) (symbol : Symbol) (kind : VarKind) :
    (table.insert symbol).tier kind =
      if symbol.kind.isClassTier = kind.isClassTier then
        (table.tier kind).insert symbol.name symbol
      else table.tier kind := by
  obtain ⟨name, type, symbolKind, index⟩ := symbol
  cases symbolKind <;> cases kind <;> rfl

/-! ## Tables that keep up with their declarations -/

/-- The two tiers of some live variables as a scope. -/
def scopeOf (vars : List Variable) : Scope where
  className := ""
  classTier := liveTier vars true
  subroutineTier := liveTier vars false

theorem tier_scopeOf (vars : List Variable) (kind : VarKind) :
    (scopeOf vars).tier kind = liveTier vars kind.isClassTier := by
  rw [Scope.tier]
  cases kind.isClassTier <;> rfl

theorem free_scopeOf_iff {vars : List Variable} {added : Variable} :
    (scopeOf vars).Free added ↔ ¬ Taken vars added.name added.kind := by
  rw [Scope.Free, tier_scopeOf, taken_iff]
  simp only [ne_eq, not_exists, not_and]

theorem scopeOf_append (vars : List Variable) (added : Variable) :
    scopeOf (vars ++ [added]) = (scopeOf vars).declare added := by
  rw [scopeOf, liveTier_append, liveTier_append, Scope.declare]
  cases added.kind.isClassTier <;> rfl

theorem scopeOf_filter (vars : List Variable) :
    scopeOf (vars.filter (·.kind.isClassTier = true)) = (scopeOf vars).enter := by
  rw [scopeOf, liveTier_filter, liveTier_filter]
  rfl

/-- A table whose maps and counters hold some live variables, and nothing else. -/
structure Kept (table : SymbolTable) (vars : List Variable) : Prop where
  represents : table.Represents (scopeOf vars)
  values : ∀ kind, (table.tier kind).values.Perm (liveTier vars kind.isClassTier)
  distinct : ∀ classTier, ((liveTier vars classTier).map Symbol.name).Nodup

theorem kept_empty : Kept {} [] where
  represents := .empty ""
  values := by
    intro kind
    have hempty : (tier {} kind).values = [] := by cases kind <;> rfl
    rw [hempty]
    exact .nil
  distinct := fun _ => List.nodup_nil

namespace Kept

variable {table : SymbolTable} {vars : List Variable}

theorem contains_iff (h : Kept table vars) (name : String) (kind : VarKind) :
    (table.tier kind).contains name = true ↔ Taken vars name kind := by
  rw [h.represents.contains_iff ⟨name, "", kind⟩, free_scopeOf_iff, not_not]

/-- A name that is taken is refused, and the table stays as it is. -/
theorem declare_error (h : Kept table vars) {name : String} {kind : VarKind}
    (htaken : Taken vars name kind) (type : String) :
    declare name type kind table = .error (.duplicateName none name) table :=
  declare_of_contains ((h.contains_iff name kind).2 htaken)

theorem count_eq (h : Kept table vars) (kind : VarKind) :
    table.count kind = .ofNat (vars.countP (·.kind = kind)) := by
  rw [h.represents.count, tier_scopeOf, countP_liveTier]

/-- A counter shows the number of live variables of its kind if it has room for it. -/
theorem toNat_count (h : Kept table vars) {limit : Nat} (hfew : AtMost limit vars)
    (hlimit : limit < UInt16.size) (kind : VarKind) :
    (table.count kind).toNat = vars.countP (·.kind = kind) := by
  rw [h.count_eq]
  exact UInt16.toNat_ofNat_of_lt (Nat.lt_of_le_of_lt (hfew kind) hlimit)

/-- A name that is not taken is declared, with what the counter of its kind shows. -/
theorem declare_ok (h : Kept table vars) {name : String} {kind : VarKind}
    (hfree : ¬ Taken vars name kind) (type : String) :
    declare name type kind table =
      .ok ⟨name, type, kind, .ofNat (vars.countP (·.kind = kind))⟩
        (table.insert ⟨name, type, kind, .ofNat (vars.countP (·.kind = kind))⟩) := by
  rw [declare_of_not_contains fun hheld => hfree ((h.contains_iff name kind).1 hheld), h.count_eq]

/-- One more variable in the list, one more entry in a map, one more in a counter. -/
theorem append (h : Kept table vars) (added : Variable)
    (hfree : ¬ Taken vars added.name added.kind) :
    Kept (table.insert
        ⟨added.name, added.type, added.kind, .ofNat (vars.countP (·.kind = added.kind))⟩)
      (vars ++ [added]) where
  represents := by
    rw [scopeOf_append, ← h.count_eq]
    exact h.represents.insert (free_scopeOf_iff.2 hfree)
  values := by
    intro kind
    rw [tier_insert, liveTier_append]
    by_cases hkind : added.kind.isClassTier = kind.isClassTier
    -- the tier that the variable goes to does not hold the name yet, or it would be taken
    · have hnew : (table.tier kind).contains added.name = false := by
        have hheld := h.contains_iff added.name added.kind
        rw [tier, hkind, ← tier] at hheld
        rw [← Bool.not_eq_true, hheld]
        exact hfree
      have hcount := countP_liveTier vars added.kind
      rw [hkind] at hcount
      rw [if_pos hkind, if_pos hkind, addVariable, hcount]
      exact (values_insert hnew _).trans
        (((h.values kind).cons _).trans (List.perm_append_singleton _ _).symm)
    -- the other tier is as it was
    · rw [if_neg hkind, if_neg hkind]
      exact h.values kind
  distinct := by
    intro classTier
    rw [liveTier_append]
    by_cases hkind : added.kind.isClassTier = classTier
    · subst hkind
      rw [if_pos rfl, addVariable, List.map_append, List.nodup_append]
      -- a name twice would have been refused
      refine ⟨h.distinct _, List.nodup_singleton _, ?_⟩
      intro name hname other hother heq
      obtain ⟨symbol, hmem, rfl⟩ := List.mem_map.1 hname
      rw [List.map_singleton, List.mem_singleton] at hother
      exact hfree (taken_iff.2 ⟨symbol, hmem, heq.trans hother⟩)
    · rw [if_neg hkind]
      exact h.distinct classTier

/-- Arguments and locals are forgotten on both sides. -/
theorem startSubroutine (h : Kept table vars) :
    Kept table.startSubroutine (vars.filter (·.kind.isClassTier = true)) where
  represents := by
    rw [scopeOf_filter]
    exact h.represents.startSubroutine
  values := by
    intro kind
    rw [liveTier_filter]
    cases hkind : kind.isClassTier with
    | true =>
      have hvalues := h.values kind
      rw [tier, hkind, if_pos rfl] at hvalues ⊢
      exact hvalues
    | false =>
      rw [tier, hkind, if_neg Bool.false_ne_true, if_neg Bool.false_ne_true]
      exact .nil
  distinct := by
    intro classTier
    rw [liveTier_filter]
    cases classTier with
    | true => exact h.distinct true
    | false => exact List.nodup_nil

theorem changed (h : Kept table vars) (change : Change) :
    Kept (table.changed change) (liveBehind vars change) := by
  cases change with
  | startSubroutine => exact h.startSubroutine
  | define name type kind =>
    rw [SymbolTable.changed, liveBehind]
    by_cases htaken : Taken vars name kind
    · rw [if_pos htaken, h.declare_error htaken]
      exact h
    · rw [if_neg htaken, h.declare_ok htaken]
      exact h.append ⟨name, type, kind⟩ htaken

end Kept

/-- Every table keeps up with its declarations. -/
theorem kept_changedAll (changes : List Change) : Kept (changedAll changes) (live changes) := by
  induction changes using List.reverseRecOn with
  | nil => exact kept_empty
  | append_singleton changes change ih =>
    rw [changedAll, live, List.foldl_append, List.foldl_append]
    exact ih.changed change

/-! ## What a table says about its declarations -/

namespace Kept

variable {table : SymbolTable} {vars : List Variable}

/-- The entries of both maps together are the live variables. -/
theorem symbols_perm (h : Kept table vars) : table.symbols.Perm (numbered vars) := by
  have hclass : table.classTier.values.Perm (liveTier vars true) := h.values .static
  have hsubroutine : table.subroutineTier.values.Perm (liveTier vars false) := h.values .localVar
  have hother : (fun symbol : Symbol => decide (symbol.kind.isClassTier = false)) =
      fun symbol => !decide (symbol.kind.isClassTier = true) := by
    funext symbol
    cases symbol.kind.isClassTier <;> rfl
  have htiers : (liveTier vars true ++ liveTier vars false).Perm (numbered vars) := by
    rw [liveTier, liveTier, hother]
    exact List.filter_append_perm _ _
  exact (List.mergeSort_perm _ _).trans ((hclass.append hsubroutine).trans htiers)

/-- In a tier a name belongs to one variable, so looking for it finds every variable that has
it. -/
theorem find?_eq_some_iff (h : Kept table vars) (classTier : Bool) {name : String}
    {symbol : Symbol} :
    (liveTier vars classTier).find? (·.name == name) = some symbol ↔
      symbol ∈ liveTier vars classTier ∧ symbol.name = name := by
  constructor
  · intro hfound
    exact ⟨List.mem_of_find?_eq_some hfound, by simpa using List.find?_some hfound⟩
  · rintro ⟨hmem, rfl⟩
    cases hfound : (liveTier vars classTier).find? (·.name == symbol.name) with
    | none => exact absurd (List.find?_eq_none.1 hfound symbol hmem) (by simp)
    | some other =>
      have hother : other.name = symbol.name := by simpa using List.find?_some hfound
      have hsame := List.inj_on_of_nodup_map (h.distinct classTier)
        (List.mem_of_find?_eq_some hfound) hmem hother
      rw [hsame]

/-- A name stands for the live argument or local that has it, or else for the static or field. -/
theorem resolve?_eq_some_iff (h : Kept table vars) {name : String} {symbol : Symbol} :
    table.resolve? name = some symbol ↔
      symbol ∈ numbered vars ∧ symbol.name = name ∧
        (symbol.kind.isClassTier = true → ¬ Taken vars name .localVar) := by
  have hnone : (liveTier vars false).find? (·.name == name) = none ↔
      ¬ Taken vars name .localVar := by
    rw [taken_iff, List.find?_eq_none]
    simp [VarKind.isClassTier]
  have hresolve : table.resolve? name =
      ((liveTier vars false).find? (·.name == name)).or
        ((liveTier vars true).find? (·.name == name)) := by
    rw [h.represents.resolve?_eq, Scope.resolve?, Option.orElse_eq_orElse, Option.orElse_eq_or]
    rfl
  rw [hresolve, Option.or_eq_some_iff, h.find?_eq_some_iff, h.find?_eq_some_iff, hnone, liveTier,
    liveTier, List.mem_filter, List.mem_filter, decide_eq_true_eq, decide_eq_true_eq]
  constructor
  · rintro (⟨⟨hmem, htier⟩, hname⟩ | ⟨hfree, ⟨hmem, htier⟩, hname⟩)
    · exact ⟨hmem, hname, fun hclass => absurd (htier.symm.trans hclass) Bool.false_ne_true⟩
    · exact ⟨hmem, hname, fun _ => hfree⟩
  · rintro ⟨hmem, hname, hfree⟩
    cases htier : symbol.kind.isClassTier with
    | false => exact .inl ⟨⟨hmem, rfl⟩, hname⟩
    | true => exact .inr ⟨hfree htier, ⟨hmem, rfl⟩, hname⟩

/-- A name that no live variable has stands for none. -/
theorem resolve?_eq_none_iff (h : Kept table vars) {name : String} :
    table.resolve? name = none ↔ ∀ declared ∈ vars, declared.name ≠ name := by
  constructor
  · intro hnone declared hmem hname
    have hfree : ∀ symbol, symbol ∈ numbered vars → symbol.name = name →
        ¬ (symbol.kind.isClassTier = true → ¬ Taken vars name .localVar) := by
      intro symbol hsymbol hnamed hclass
      have hsome := h.resolve?_eq_some_iff.2 ⟨hsymbol, hnamed, hclass⟩
      rw [hnone] at hsome
      cases hsome
    -- an argument or local of the name would be found first, and without one the variable itself
    by_cases htaken : Taken vars name .localVar
    · obtain ⟨symbol, hsymbol, hnamed⟩ := taken_iff.1 htaken
      obtain ⟨hsymbol, htier⟩ := List.mem_filter.1 hsymbol
      rw [decide_eq_true_eq] at htier
      exact hfree symbol hsymbol hnamed
        fun hclass => absurd (htier.symm.trans hclass) Bool.false_ne_true
    · rw [← map_ofSymbol_numbered vars] at hmem
      obtain ⟨symbol, hsymbol, rfl⟩ := List.mem_map.1 hmem
      exact hfree symbol hsymbol hname fun _ => htaken
  · intro hother
    cases hfound : table.resolve? name with
    | none => rfl
    | some symbol =>
      obtain ⟨hmem, hname, -⟩ := h.resolve?_eq_some_iff.1 hfound
      have hdeclared : Variable.ofSymbol symbol ∈ vars := by
        rw [← map_ofSymbol_numbered vars]
        exact List.mem_map_of_mem hmem
      exact absurd hname (hother _ hdeclared)

end Kept

/-- What a table says about the variables that some declarations left live. -/
structure Records (table : SymbolTable) (vars : List Variable) : Prop where
  /-- A declaration is refused exactly if its tier holds the name, and then changes nothing. -/
  refuses : ∀ name type kind,
    (∃ error reached, declare name type kind table = .error error reached) ↔ Taken vars name kind
  unchanged : ∀ name type kind, Taken vars name kind →
    table.changed (.define name type kind) = table
  /-- Another one gets the number of live variables of its kind. -/
  defines : ∀ name type kind, ¬ Taken vars name kind → ∃ symbol reached,
    declare name type kind table = .ok symbol reached ∧
      Variable.ofSymbol symbol = ⟨name, type, kind⟩ ∧
        symbol.index.toNat = vars.countP (·.kind = kind)
  /-- The entries are the live variables. -/
  symbols : table.symbols.Perm (numbered vars)
  /-- Each one has the number of those of its kind before it. -/
  numbers : ∀ front symbol back, numbered vars = front ++ symbol :: back →
    symbol.index.toNat = front.countP (·.kind = symbol.kind)
  /-- A name stands for the argument or local that has it, or else for the static or field. -/
  resolves : ∀ name symbol, table.resolve? name = some symbol ↔
    symbol ∈ numbered vars ∧ symbol.name = name ∧
      (symbol.kind.isClassTier = true → ¬ Taken vars name .localVar)
  unresolved : ∀ name, table.resolve? name = none ↔ ∀ declared ∈ vars, declared.name ≠ name
  /-- The counters count the live variables. -/
  counts : ∀ kind, (table.count kind).toNat = vars.countP (·.kind = kind)
  /-- The indices of a kind are the numbers below its counter, each once. -/
  indices : ∀ kind, ((table.symbols.filter (·.kind = kind)).map (·.index.toNat)).Perm
    (List.range (table.count kind).toNat)
  /-- No two variables share a place in memory. -/
  apart : ∀ a ∈ table.symbols, ∀ b ∈ table.symbols,
    a.kind.segment = b.kind.segment → a.index = b.index → a = b

/-- **Tables record declarations.** Whatever definitions and starts of subroutines an empty table
went through, it holds the variables that they leave live, as long as these are no more of a kind
than a counter can show. -/
theorem changedAll_records (changes : List Change) (hfew : AtMost 65535 (live changes)) :
    (changedAll changes).Records (live changes) := by
  have h := kept_changedAll changes
  have hindexed : AtMost UInt16.size (live changes) := hfew.mono (by decide)
  have hcount := h.toNat_count hfew (by decide)
  -- which names are refused, what a refusal leaves, and what an accepted one gets
  refine ⟨?_, ?_, ?_, h.symbols_perm, fun _ _ _ hsplit => toNat_index hindexed hsplit,
    fun _ _ => h.resolve?_eq_some_iff, fun _ => h.resolve?_eq_none_iff, hcount, ?_, ?_⟩
  · intro name type kind
    constructor
    · rintro ⟨error, reached, herror⟩
      by_contra hfree
      rw [h.declare_ok hfree] at herror
      cases herror
    · intro htaken
      exact ⟨_, _, h.declare_error htaken type⟩
  · intro name type kind htaken
    rw [changed, h.declare_error htaken]
    rfl
  · intro name type kind hfree
    refine ⟨_, _, h.declare_ok hfree type, rfl, ?_⟩
    rw [← h.count_eq, hcount]
  · intro kind
    rw [hcount, ← indices_numbered hindexed]
    exact (h.symbols_perm.filter _).map _
  · intro a ha b hb hsegment hindex
    have hkind := VarKind.segment_inj hsegment
    exact eq_of_index_eq hindexed (h.symbols_perm.mem_iff.1 ha) (h.symbols_perm.mem_iff.1 hb)
      hkind hindex

/-- A field that a local of the second subroutine hides. -/
def hidden : List Change :=
  [.define "x" "int" .field, .define "x" "char" .static, .startSubroutine,
    .define "a" "int" .argument, .startSubroutine, .define "b" "int" .argument,
    .define "x" "Point" .localVar, .define "b" "char" .localVar]

/-- The second subroutine counts its arguments from zero, and the name that came twice in its tier
is an argument. -/
theorem changedAll_records_hidden :
    live hidden = [⟨"x", "int", .field⟩, ⟨"b", "int", .argument⟩, ⟨"x", "Point", .localVar⟩] ∧
      (changedAll hidden).Records
        [⟨"x", "int", .field⟩, ⟨"b", "int", .argument⟩, ⟨"x", "Point", .localVar⟩] := by
  have hlive : live hidden =
      [⟨"x", "int", .field⟩, ⟨"b", "int", .argument⟩, ⟨"x", "Point", .localVar⟩] := by decide
  refine ⟨hlive, ?_⟩
  rw [← hlive]
  exact changedAll_records hidden (by decide)

end SymbolTable

end Jack
