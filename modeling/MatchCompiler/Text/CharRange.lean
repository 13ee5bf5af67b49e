/-
  This file defines tables of character ranges, the form in
  which the properties of the Unicode standard are kept. All
  tables are those of version 17.0.

  Key definitions include:
    * `CharRanges`
    * `CharRanges.holds`

  Key theorems include:
    * `CharRanges.holds_iff`
-/

------------------------------------------------------------
-- Tables Of Ranges
------------------------------------------------------------

namespace MatchCompiler

/- First and last code point of each range, in order. -/
abbrev CharRanges :=
  List (Nat × Nat)

/- Whether a character lies in one of the ranges. -/
def CharRanges.holds
    (table : CharRanges)
    (c : Char) : Bool :=
  table.any (fun r => r.1 ≤ c.toNat && c.toNat ≤ r.2)

/- A character is held when some range encloses it. -/
theorem CharRanges.holds_iff
    (table : CharRanges)
    (c : Char) :
    table.holds c = true ↔
      ∃ r ∈ table, r.1 ≤ c.toNat ∧ c.toNat ≤ r.2 := by
  simp [CharRanges.holds]

end MatchCompiler
