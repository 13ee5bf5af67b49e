import MatchCompiler.Text.Lowercase

/-
  This file finds the declared names that a misspelt name may
  stand for.

  Names are compared by the number of characters to insert,
  delete or replace. A difference in letter case alone counts
  as no difference, and only names within a threshold that
  grows with the length are offered.

  Key definitions include:
    * `Suggestion.editDistance`
    * `Suggestion.defaultThreshold`
    * `Suggestion.distance`
    * `Suggestion.similarWithin`
    * `Suggestion.similar`
    * `Suggestion.best?`

  Key theorems include:
    * `Suggestion.length_rowFrom`
    * `Suggestion.length_nextRow`
-/

------------------------------------------------------------
-- Edit Distance
------------------------------------------------------------

namespace MatchCompiler

namespace Suggestion

/-
  The rest of a row of the distance table. `left` is the
  entry just computed and `corner` the one above it; the
  entries above the rest come with the characters they belong
  to.
-/
def rowFrom
    (c : Char)
    (left corner : Nat) :
    List Char → List Nat → List Nat
| d :: ds, up :: ups =>
    let cost := if c == d then 0 else 1
    let here := min (min (up + 1) (left + 1)) (corner + cost)
    here :: rowFrom c here up ds ups
| _, _ => []

/-
  The row for one more character of the first text, from the
  row before it. A row holds the distances to the longer and
  longer beginnings of the second text.
-/
def nextRow
    (b : List Char)
    (row : List Nat)
    (c : Char) : List Nat :=
  match row with
  | [] => []
  | corner :: ups =>
      (corner + 1) :: rowFrom c (corner + 1) corner b ups

/-
  The least number of insertions, deletions and replacements
  of single characters that turn `a` into `b`.
-/
def editDistance (a b : String) : Nat :=
  let first := List.range (b.toList.length + 1)
  let last := a.toList.foldl (nextRow b.toList) first
  last.getLast?.getD 0

end Suggestion

end MatchCompiler

------------------------------------------------------------
-- Similar Names
------------------------------------------------------------

namespace MatchCompiler

namespace Suggestion

/- The distance worth offering for a name of `n` characters. -/
def defaultThreshold (n : Nat) : Nat :=
  if n == 0 then 0
  else if n ≤ 2 then 1
  else if n ≤ 5 then 2
  else if n ≤ 10 then 3
  else min (n / 2) 5

/- The edit distance, or zero if only letter case differs. -/
def distance (name candidate : String) : Nat :=
  if Text.lower candidate == Text.lower name then
    0
  else
    editDistance name candidate

/-
  A candidate with its distance, if it lies within the
  threshold. A candidate whose number of bytes differs by
  more than the threshold is passed over.
-/
def score?
    (name : String)
    (threshold : Nat)
    (candidate : String) : Option (Nat × String) :=
  let longer := max name.utf8ByteSize candidate.utf8ByteSize
  let shorter := min name.utf8ByteSize candidate.utf8ByteSize
  let d := distance name candidate
  if longer - shorter ≤ threshold && d ≤ threshold then
    some (d, candidate)
  else
    none

/-
  The candidates within a threshold other than the name
  itself, closest first, equally close ones in the order
  given. Neighbouring repetitions are merged. The empty name
  is similar to nothing.
-/
def similarWithin
    (threshold : Nat)
    (name : String)
    (candidates : List String) : List String :=
  if name.isEmpty then
    []
  else
    let others := candidates.filter (· != name)
    let scored := others.filterMap (score? name threshold)
    let ranked := scored.mergeSort (fun x y => x.1 ≤ y.1)
    (ranked.map Prod.snd).eraseReps

/- The candidates within the default threshold. -/
def similar
    (name : String)
    (candidates : List String) : List String :=
  similarWithin (defaultThreshold name.length) name candidates

/- The closest candidate within the default threshold. -/
def best?
    (name : String)
    (candidates : List String) : Option String :=
  (similar name candidates).head?

end Suggestion

end MatchCompiler

------------------------------------------------------------
-- Properties Of Rows
------------------------------------------------------------

namespace MatchCompiler

namespace Suggestion

/- A row is as long as the shorter of its two sources. -/
theorem length_rowFrom
    (c : Char) :
    ∀ (left corner : Nat) (ds : List Char) (ups : List Nat),
      (rowFrom c left corner ds ups).length = min ds.length ups.length
| _, _, [], _ => by
    simp [rowFrom]
| _, _, _ :: _, [] => by
    simp [rowFrom]
| left, corner, d :: ds, up :: ups => by
    simp only [rowFrom, List.length_cons, length_rowFrom]
    omega

/- All rows for a text have one length. -/
theorem length_nextRow
    {b : List Char}
    {row : List Nat}
    (c : Char)
    (h : row.length = b.length + 1) :
    (nextRow b row c).length = b.length + 1 := by
  cases row with
  | nil => simp at h
  | cons corner ups =>
      have hUps : ups.length = b.length := by
        simpa using h
      simp only [nextRow, List.length_cons, length_rowFrom, hUps,
        Nat.min_self]

end Suggestion

end MatchCompiler
