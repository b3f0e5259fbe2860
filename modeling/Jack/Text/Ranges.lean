/-
Sets of code points given as a table of ranges.

A table lists closed ranges of code points in ascending order without overlap.
Membership walks the table and stops at the first range that begins above the
code point, so a code point at the front of the table costs a step or two.
`contains_iff` says that stopping early loses nothing on an ascending table.
-/

set_option autoImplicit false

namespace Jack.Text

/-- Closed ranges of code points, first and last one included. -/
abbrev Ranges := List (Nat × Nat)

/-- Whether `n` lies in one of the ranges of an ascending table. -/
def Ranges.contains : Ranges → Nat → Bool
  | [], _ => false
  | (lo, hi) :: rest, n => if n < lo then false else if n ≤ hi then true else contains rest n

/-- Each range begins above everything listed before it: `floor` is the last
code point taken so far. -/
def Ranges.ascendingFrom (floor : Nat) : Ranges → Bool
  | [] => true
  | (lo, hi) :: rest => decide (floor < lo) && decide (lo ≤ hi) && ascendingFrom hi rest

/-- In an ascending table every range begins above the floor. -/
theorem Ranges.floor_lt_of_mem {table : Ranges} {floor : Nat}
    (hascending : table.ascendingFrom floor) {range : Nat × Nat} (hmem : range ∈ table) :
    floor < range.1 := by
  induction table generalizing floor with
  | nil => cases hmem
  | cons head rest ih =>
    simp only [ascendingFrom, Bool.and_eq_true, decide_eq_true_eq] at hascending
    rcases List.mem_cons.1 hmem with rfl | hlater
    · exact hascending.1.1
    · have := ih hascending.2 hlater
      omega

/-- Membership in an ascending table is membership in one of its ranges. -/
theorem Ranges.contains_iff {table : Ranges} {floor : Nat}
    (hascending : table.ascendingFrom floor) (n : Nat) :
    table.contains n = true ↔ ∃ range ∈ table, range.1 ≤ n ∧ n ≤ range.2 := by
  induction table generalizing floor with
  | nil => simp [contains]
  | cons head rest ih =>
    obtain ⟨lo, hi⟩ := head
    simp only [ascendingFrom, Bool.and_eq_true, decide_eq_true_eq] at hascending
    have hlater : ∀ range ∈ rest, hi < range.1 := fun range hmem =>
      Ranges.floor_lt_of_mem hascending.2 hmem
    rw [contains]
    split
    · next hbelow =>
      simp only [Bool.false_eq_true, false_iff, not_exists, not_and]
      intro range hmem hlo
      rcases List.mem_cons.1 hmem with rfl | hmem
      · omega
      · have := hlater range hmem
        omega
    · next hreached =>
      split
      · next hinside =>
        exact ⟨fun _ => ⟨(lo, hi), List.mem_cons_self, by omega, hinside⟩, fun _ => rfl⟩
      · next habove =>
        rw [ih hascending.2]
        constructor
        · rintro ⟨range, hmem, hbounds⟩
          exact ⟨range, List.mem_cons_of_mem _ hmem, hbounds⟩
        · rintro ⟨range, hmem, hbounds⟩
          rcases List.mem_cons.1 hmem with rfl | hmem
          · omega
          · exact ⟨range, hmem, hbounds⟩

end Jack.Text
