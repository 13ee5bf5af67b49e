import MatchCompiler.Suggestion
import Mathlib.Order.Bounds.Basic
import Mathlib.Order.MinMax

/-
  This file shows that the edit distance of two texts is the
  least number of edits that turn one into the other.

  An edit inserts, deletes or replaces one character. The
  least number of edits is given by a recursion over the first
  characters of both texts. The table of distances is filled
  from the first characters on, so that its recursion is over
  the last ones; as texts are edited backwards as well as
  forwards, both give the same number. The laws of a distance
  are laws of edits.

  A table can also be kept in two rows, each of them
  overwritten when the next but one is filled. Every place
  that is read or written then is a place of the row.

  Key definitions include:
    * `Suggestion.Edits`
    * `Suggestion.leastEdits`
    * `Suggestion.distanceInPlace?`

  Key theorems include:
    * `Suggestion.isLeast_leastEdits`
    * `Suggestion.leastEdits_concat`
    * `Suggestion.foldl_nextRow`
    * `Suggestion.sweep?_eq`
    * `Suggestion.editDistance_laws`
-/

------------------------------------------------------------
-- Edits
------------------------------------------------------------

namespace MatchCompiler

namespace Suggestion

/- One character is inserted, deleted or replaced. -/
inductive Edit : List Char → List Char → Prop
| insert
    (before : List Char)
    (c : Char)
    (rest : List Char) :
    Edit (before ++ rest) (before ++ c :: rest)
| delete
    (before : List Char)
    (c : Char)
    (rest : List Char) :
    Edit (before ++ c :: rest) (before ++ rest)
| replace
    (before : List Char)
    (c d : Char)
    (rest : List Char) :
    Edit (before ++ c :: rest) (before ++ d :: rest)

/- A number of edits, one after the other. -/
inductive Edits : Nat → List Char → List Char → Prop
| none
    (a : List Char) :
    Edits 0 a a
| more
    {n : Nat}
    {a b c : List Char}
    (hFirst : Edit a b)
    (hRest : Edits n b c) :
    Edits (n + 1) a c

variable {a b c : List Char}
variable {n m : Nat}

/- An edit can be undone. -/
theorem Edit.symm
    (h : Edit a b) :
    Edit b a := by
  cases h with
  | insert before c rest => exact .delete before c rest
  | delete before c rest => exact .insert before c rest
  | replace before c d rest => exact .replace before d c rest

/- A text is edited backwards like forwards. -/
theorem Edit.reverse
    (h : Edit a b) :
    Edit a.reverse b.reverse := by
  cases h with
  | insert before c rest =>
      simpa using Edit.insert rest.reverse c before.reverse
  | delete before c rest =>
      simpa using Edit.delete rest.reverse c before.reverse
  | replace before c d rest =>
      simpa using Edit.replace rest.reverse c d before.reverse

/- What stands in front does not matter. -/
theorem Edit.cons
    (x : Char)
    (h : Edit a b) :
    Edit (x :: a) (x :: b) := by
  cases h with
  | insert before c rest => exact .insert (x :: before) c rest
  | delete before c rest => exact .delete (x :: before) c rest
  | replace before c d rest => exact .replace (x :: before) c d rest

namespace Edits

theorem trans
    (h : Edits n a b)
    (h' : Edits m b c) :
    Edits (n + m) a c := by
  induction h with
  | none => rwa [Nat.zero_add]
  | @more n a b _ hFirst _ ih =>
      have hRest := Edits.more hFirst (ih h')
      rwa [Nat.add_right_comm] at hRest

theorem symm
    (h : Edits n a b) :
    Edits n b a := by
  induction h with
  | none a => exact .none a
  | @more n a b _ hFirst _ ih => exact ih.trans (.more hFirst.symm (.none a))

theorem reverse
    (h : Edits n a b) :
    Edits n a.reverse b.reverse := by
  induction h with
  | none a => exact .none a.reverse
  | more hFirst _ ih => exact .more hFirst.reverse ih

theorem cons
    (x : Char)
    (h : Edits n a b) :
    Edits n (x :: a) (x :: b) := by
  induction h with
  | none a => exact .none (x :: a)
  | more hFirst _ ih => exact .more (hFirst.cons x) ih

theorem zero_iff :
    Edits 0 a b ↔ a = b := by
  constructor
  · intro h
    cases h
    rfl
  · intro h
    rw [h]
    exact .none b

/- A text is written character by character. -/
theorem write
    (b : List Char) :
    Edits b.length [] b := by
  induction b with
  | nil => exact .none []
  | cons d b ih => exact .more (.insert [] d []) (ih.cons d)

end Edits

end Suggestion

end MatchCompiler

------------------------------------------------------------
-- The Least Number Of Edits
------------------------------------------------------------

namespace MatchCompiler

namespace Suggestion

/-
  The least number of edits. The first characters are kept if
  they are equal; otherwise the first is deleted, or the other
  inserted, or one is replaced by the other.
-/
def leastEdits : List Char → List Char → Nat
| [], b => b.length
| c :: a, [] => (c :: a).length
| c :: a, d :: b =>
    min
      (min (leastEdits a (d :: b) + 1) (leastEdits (c :: a) b + 1))
      (leastEdits a b + if c = d then 0 else 1)
termination_by a b => a.length + b.length

variable {a b c : List Char}
variable {n : Nat}

@[simp] theorem leastEdits_nil_left
    (b : List Char) :
    leastEdits [] b = b.length := by
  rw [leastEdits]

@[simp] theorem leastEdits_nil_right
    (a : List Char) :
    leastEdits a [] = a.length := by
  cases a <;> rw [leastEdits]

theorem leastEdits_cons_cons
    (c d : Char)
    (a b : List Char) :
    leastEdits (c :: a) (d :: b) =
      min
        (min (leastEdits a (d :: b) + 1) (leastEdits (c :: a) b + 1))
        (leastEdits a b + if c = d then 0 else 1) := by
  rw [leastEdits]

theorem leastEdits_self
    (a : List Char) :
    leastEdits a a = 0 := by
  induction a with
  | nil => rw [leastEdits_nil_left, List.length_nil]
  | cons c a ih => simp [leastEdits_cons_cons, ih]

/- So many edits do turn one text into the other. -/
theorem edits_leastEdits
    (a b : List Char) :
    Edits (leastEdits a b) a b := by
  fun_induction leastEdits a b with
  | case1 b => exact .write b
  | case2 c a => exact (Edits.write (c :: a)).symm
  | case3 c a d b ihDelete ihInsert ihReplace =>
      have hDelete := Edits.more (.delete [] c a) ihDelete
      have hInsert := Edits.more (.insert [] d (c :: a)) (ihInsert.cons d)
      have hReplace :
          Edits (leastEdits a b + if c = d then 0 else 1)
            (c :: a) (d :: b) := by
        by_cases hSame : c = d
        · rw [if_pos hSame, hSame]
          exact ihReplace.cons d
        · rw [if_neg hSame]
          exact .more (.replace [] c d a) (ihReplace.cons d)
      rcases min_choice
          (min (leastEdits a (d :: b) + 1) (leastEdits (c :: a) b + 1))
          (leastEdits a b + if c = d then 0 else 1) with hMin | hMin
      · rw [hMin]
        rcases min_choice (leastEdits a (d :: b) + 1)
            (leastEdits (c :: a) b + 1) with hMin' | hMin'
        · rw [hMin']
          exact hDelete
        · rw [hMin']
          exact hInsert
      · rw [hMin]
        exact hReplace

/- A character more in front takes one edit more at most. -/
theorem leastEdits_cons_left_le
    (x : Char)
    (a z : List Char) :
    leastEdits (x :: a) z ≤ leastEdits a z + 1 := by
  cases z with
  | nil => simp
  | cons y z =>
      rw [leastEdits_cons_cons]
      omega

theorem leastEdits_cons_right_le
    (a : List Char)
    (y : Char)
    (z : List Char) :
    leastEdits a (y :: z) ≤ leastEdits a z + 1 := by
  cases a with
  | nil => simp
  | cons x a =>
      rw [leastEdits_cons_cons]
      omega

/- So does a character less. -/
theorem leastEdits_le_cons_left
    (x : Char)
    (a z : List Char) :
    leastEdits a z ≤ leastEdits (x :: a) z + 1 := by
  induction z with
  | nil => simp; omega
  | cons y z ih =>
      have hRight := leastEdits_cons_right_le a y z
      rw [leastEdits_cons_cons]
      omega

/- So does another character. -/
theorem leastEdits_replace_le
    (x x' : Char)
    (a z : List Char) :
    leastEdits (x :: a) z ≤ leastEdits (x' :: a) z + 1 := by
  induction z with
  | nil => simp
  | cons y z ih =>
      rw [leastEdits_cons_cons, leastEdits_cons_cons]
      split <;> split <;> omega

/- What holds of two texts holds of texts that end in them. -/
theorem leastEdits_append_le
    {s t : List Char}
    (h : ∀ z, leastEdits s z ≤ leastEdits t z + 1)
    (before z : List Char) :
    leastEdits (before ++ s) z ≤ leastEdits (before ++ t) z + 1 := by
  induction before generalizing z with
  | nil => exact h z
  | cons x before ih =>
      induction z with
      | nil =>
          have hLength := ih []
          simp only [leastEdits_nil_right, List.cons_append,
            List.length_cons] at hLength ⊢
          omega
      | cons y z ihz =>
          have hDelete := ih (y :: z)
          have hReplace := ih z
          simp only [List.cons_append] at ihz ⊢
          rw [leastEdits_cons_cons, leastEdits_cons_cons]
          omega

theorem Edit.leastEdits_le
    (h : Edit a b)
    (z : List Char) :
    leastEdits a z ≤ leastEdits b z + 1 := by
  cases h with
  | insert before c rest =>
      exact leastEdits_append_le (leastEdits_le_cons_left c rest) before z
  | delete before c rest =>
      exact leastEdits_append_le (leastEdits_cons_left_le c rest) before z
  | replace before c d rest =>
      exact leastEdits_append_le (leastEdits_replace_le c d rest) before z

/- Fewer edits do not suffice. -/
theorem Edits.leastEdits_le
    (h : Edits n a b) :
    leastEdits a b ≤ n := by
  induction h with
  | none a => rw [leastEdits_self]
  | @more n a b c hFirst _ ih =>
      have hStep := hFirst.leastEdits_le c
      omega

theorem isLeast_leastEdits
    (a b : List Char) :
    IsLeast {n | Edits n a b} (leastEdits a b) :=
  ⟨edits_leastEdits a b, fun _ h => h.leastEdits_le⟩

theorem leastEdits_comm
    (a b : List Char) :
    leastEdits a b = leastEdits b a := by
  apply Nat.le_antisymm
  · exact (edits_leastEdits b a).symm.leastEdits_le
  · exact (edits_leastEdits a b).symm.leastEdits_le

theorem leastEdits_eq_zero_iff :
    leastEdits a b = 0 ↔ a = b := by
  constructor
  · intro hZero
    have hEdits := edits_leastEdits a b
    rw [hZero] at hEdits
    exact Edits.zero_iff.mp hEdits
  · intro hSame
    rw [hSame, leastEdits_self]

theorem leastEdits_triangle
    (a b c : List Char) :
    leastEdits a c ≤ leastEdits a b + leastEdits b c :=
  ((edits_leastEdits a b).trans (edits_leastEdits b c)).leastEdits_le

theorem leastEdits_reverse
    (a b : List Char) :
    leastEdits a.reverse b.reverse = leastEdits a b := by
  apply Nat.le_antisymm
  · exact (edits_leastEdits a b).reverse.leastEdits_le
  · have hBack := (edits_leastEdits a.reverse b.reverse).reverse
    rw [List.reverse_reverse, List.reverse_reverse] at hBack
    exact hBack.leastEdits_le

/- The recursion over the last characters. -/
theorem leastEdits_concat
    (a b : List Char)
    (c d : Char) :
    leastEdits (a ++ [c]) (b ++ [d]) =
      min
        (min (leastEdits a (b ++ [d]) + 1) (leastEdits (a ++ [c]) b + 1))
        (leastEdits a b + if c = d then 0 else 1) := by
  calc leastEdits (a ++ [c]) (b ++ [d])
      = leastEdits (c :: a.reverse) (d :: b.reverse) := by
        rw [← leastEdits_reverse, List.reverse_concat, List.reverse_concat]
    _ = _ := by
        rw [leastEdits_cons_cons, ← List.reverse_concat,
          ← List.reverse_concat, leastEdits_reverse, leastEdits_reverse,
          leastEdits_reverse]

end Suggestion

end MatchCompiler

------------------------------------------------------------
-- Rows
------------------------------------------------------------

namespace MatchCompiler

namespace Suggestion

/-
  The distances of a text to the longer and longer beginnings
  of another, from some beginning on.
-/
def distancesFrom
    (a begun : List Char) :
    List Char → List Nat
| [] => []
| d :: rest =>
    leastEdits a (begun ++ [d]) :: distancesFrom a (begun ++ [d]) rest

/- The row of a text in the table of distances. -/
def distances (a b : List Char) : List Nat :=
  a.length :: distancesFrom a [] b

theorem length_distancesFrom
    (a begun rest : List Char) :
    (distancesFrom a begun rest).length = rest.length := by
  induction rest generalizing begun with
  | nil => rfl
  | cons d rest ih => simp [distancesFrom, ih]

/- The row of the empty text. -/
theorem distances_nil
    (b : List Char) :
    distances [] b = List.range (b.length + 1) := by
  have hFrom :
      ∀ (begun rest : List Char), distancesFrom [] begun rest =
        List.range' (begun.length + 1) rest.length := by
    intro begun rest
    induction rest generalizing begun with
    | nil => rfl
    | cons d rest ih =>
        rw [distancesFrom, ih, List.length_cons, List.range'_succ,
          leastEdits_nil_left, List.length_append, List.length_singleton]
  rw [distances, hFrom, List.range_eq_range', List.range'_succ]
  rfl

/-
  A row is filled from left to right: all that is read are
  distances of shorter beginnings.
-/
theorem rowFrom_distancesFrom
    (a : List Char)
    (c : Char)
    (begun rest : List Char) :
    rowFrom c (leastEdits (a ++ [c]) begun) (leastEdits a begun) rest
        (distancesFrom a begun rest) =
      distancesFrom (a ++ [c]) begun rest := by
  induction rest generalizing begun with
  | nil => rfl
  | cons d rest ih =>
      have hHere :
          min
            (min (leastEdits a (begun ++ [d]) + 1)
              (leastEdits (a ++ [c]) begun + 1))
            (leastEdits a begun + if c == d then 0 else 1) =
          leastEdits (a ++ [c]) (begun ++ [d]) := by
        simp only [leastEdits_concat, beq_iff_eq]
      simp only [distancesFrom, rowFrom, hHere, ih]

theorem nextRow_distances
    (a b : List Char)
    (c : Char) :
    nextRow b (distances a b) c = distances (a ++ [c]) b := by
  have hRow := rowFrom_distancesFrom a c [] b
  rw [leastEdits_nil_right, leastEdits_nil_right, List.length_append,
    List.length_singleton] at hRow
  simp only [distances, nextRow, hRow, List.length_append,
    List.length_singleton]

/- The rows that follow one another. -/
theorem foldl_nextRow
    (a rest b : List Char) :
    rest.foldl (nextRow b) (distances a b) = distances (a ++ rest) b := by
  induction rest generalizing a with
  | nil => rw [List.foldl_nil, List.append_nil]
  | cons c rest ih =>
      rw [List.foldl_cons, nextRow_distances, ih, List.append_assoc,
        List.singleton_append]

/- The last place of a row. -/
theorem getLast?_distances
    (a b : List Char) :
    (distances a b).getLast? = some (leastEdits a b) := by
  have hFrom :
      ∀ begun rest : List Char,
        (leastEdits a begun :: distancesFrom a begun rest).getLast? =
          some (leastEdits a (begun ++ rest)) := by
    intro begun rest
    induction rest generalizing begun with
    | nil => rw [distancesFrom, List.getLast?_singleton, List.append_nil]
    | cons d rest ih =>
        rw [distancesFrom, List.getLast?_cons_cons, ih, List.append_assoc,
          List.singleton_append]
  have hWhole := hFrom [] b
  rw [leastEdits_nil_right, List.nil_append] at hWhole
  exact hWhole

theorem editDistance_eq
    (a b : String) :
    editDistance a b = leastEdits a.toList b.toList := by
  unfold editDistance
  rw [← distances_nil]
  dsimp only
  rw [foldl_nextRow, List.nil_append, getLast?_distances]
  rfl

end Suggestion

end MatchCompiler

------------------------------------------------------------
-- Two Rows
------------------------------------------------------------

namespace MatchCompiler

namespace Suggestion

/- Write a place of a row, if there is such a place. -/
def put?
    (row : List Nat)
    (place n : Nat) : Option (List Nat) :=
  if place < row.length then some (row.set place n) else none

/-
  Fill the rest of a row from a place on, from the row before
  it. Every place is read and written by its number.
-/
def fill?
    (c : Char)
    (above : List Nat) :
    Nat → List Char → List Nat → Option (List Nat)
| _, [], row => some row
| j, d :: rest, row => do
    let up ← above[j + 1]?
    let left ← row[j]?
    let corner ← above[j]?
    let cost := if c == d then 0 else 1
    let row ← put? row (j + 1)
      (min (min (up + 1) (left + 1)) (corner + cost))
    fill? c above (j + 1) rest row

/-
  Go through the characters of a text with two rows. The one
  that is filled overwrites what it held, and then they change
  places.
-/
def sweep?
    (b : List Char) :
    Nat → List Char → List Nat → List Nat → Option (List Nat)
| _, [], above, _ => some above
| i, c :: rest, above, row => do
    let row ← put? row 0 (i + 1)
    let row ← fill? c above 0 b row
    sweep? b (i + 1) rest row above

/- The edit distance, computed with two rows. -/
def distanceInPlace? (a b : String) : Option Nat :=
  if a.length = 0 then
    some b.length
  else if b.length = 0 then
    some a.length
  else do
    let last ← sweep? b.toList 0 a.toList
      (List.range (b.length + 1)) (List.replicate (b.length + 1) 0)
    last[b.length]?

/-
  What a row held does not matter where it is filled, and what
  has been filled is kept.
-/
theorem fill?_eq
    (c : Char)
    (rest : List Char)
    (front ups done stale : List Nat)
    (corner left : Nat)
    (hPlace : front.length = done.length)
    (hUps : ups.length = rest.length)
    (hStale : stale.length = rest.length) :
    fill? c (front ++ corner :: ups) done.length rest
        (done ++ left :: stale) =
      some (done ++ left :: rowFrom c left corner rest ups) := by
  induction rest generalizing front ups done stale corner left with
  | nil =>
      rw [List.length_eq_zero_iff.mp hStale]
      rfl
  | cons d rest ih =>
      cases ups with
      | nil => cases hUps
      | cons up ups =>
          cases stale with
          | nil => cases hStale
          | cons old stale =>
              generalize hHere :
                min (min (up + 1) (left + 1))
                  (corner + if c == d then 0 else 1) = here
              have hUp :
                  (front ++ corner :: up :: ups)[done.length + 1]? =
                    some up := by
                simp [← hPlace]
              have hCorner :
                  (front ++ corner :: up :: ups)[done.length]? =
                    some corner := by
                simp [← hPlace]
              have hLeft :
                  (done ++ left :: old :: stale)[done.length]? =
                    some left := by
                simp
              have hPut :
                  put? (done ++ left :: old :: stale) (done.length + 1)
                      here =
                    some (done ++ left :: here :: stale) := by
                simp [put?]
              have hRest := ih (front ++ [corner]) ups (done ++ [left]) stale
                up here (by simp [hPlace]) (Nat.succ.inj hUps)
                (Nat.succ.inj hStale)
              simp only [List.append_assoc, List.singleton_append,
                List.length_append, List.length_singleton] at hRest
              simp only [fill?, rowFrom, hUp, hLeft, hCorner, hHere, hPut,
                hRest, Option.bind_eq_bind, Option.bind_some]

/- With two rows the same rows are found as with a table. -/
theorem sweep?_eq
    (a b : List Char)
    (i : Nat)
    {ups row : List Nat}
    (hUps : ups.length = b.length)
    (hRow : row.length = b.length + 1) :
    sweep? b i a (i :: ups) row = some (a.foldl (nextRow b) (i :: ups)) := by
  induction a generalizing i ups row with
  | nil => rfl
  | cons c a ih =>
      cases row with
      | nil => cases hRow
      | cons old stale =>
          have hStale : stale.length = b.length := Nat.succ.inj hRow
          have hPut :
              put? (old :: stale) 0 (i + 1) = some ((i + 1) :: stale) := by
            simp [put?]
          have hFill := fill?_eq c b [] ups [] stale i (i + 1) rfl hUps
            hStale
          simp only [List.nil_append, List.length_nil] at hFill
          have hLength :
              (rowFrom c (i + 1) i b ups).length = b.length := by
            rw [length_rowFrom, hUps, Nat.min_self]
          have hNext : (i :: ups).length = b.length + 1 :=
            congrArg Nat.succ hUps
          have hRest := ih (i + 1) hLength hNext
          simp [sweep?, hPut, hFill, hRest, nextRow]

theorem distanceInPlace?_eq
    (a b : String) :
    distanceInPlace? a b = some (editDistance a b) := by
  unfold distanceInPlace?
  rw [editDistance_eq]
  split
  · rename_i hEmpty
    rw [← String.length_toList, List.length_eq_zero_iff] at hEmpty
    rw [hEmpty, leastEdits_nil_left, String.length_toList]
  · split
    · rename_i hEmpty
      rw [← String.length_toList, List.length_eq_zero_iff] at hEmpty
      rw [hEmpty, leastEdits_nil_right, String.length_toList]
    · have hSweep :
          sweep? b.toList 0 a.toList (List.range (b.length + 1))
              (List.replicate (b.length + 1) 0) =
            some (distances a.toList b.toList) := by
        rw [← String.length_toList, ← distances_nil, distances]
        rw [List.length_nil, sweep?_eq _ _ _ (length_distancesFrom _ _ _)
          List.length_replicate]
        exact congrArg some (foldl_nextRow [] a.toList b.toList)
      have hLast := getLast?_distances a.toList b.toList
      rw [List.getLast?_eq_getElem?] at hLast
      have hLength : (distances a.toList b.toList).length = b.length + 1 := by
        rw [distances, List.length_cons, length_distancesFrom,
          String.length_toList]
      rw [hLength, Nat.add_sub_cancel] at hLast
      rw [hSweep]
      exact hLast

/-
  The edit distance is the least number of edits, whether it
  is computed by a recursion, by a table or with two rows that
  are read and written by number. It is a distance.
-/
theorem editDistance_laws
    (a b : String) :
    distanceInPlace? a b = some (editDistance a b) ∧
    editDistance a b = leastEdits a.toList b.toList ∧
    IsLeast {n | Edits n a.toList b.toList} (editDistance a b) ∧
    editDistance a b = editDistance b a ∧
    (editDistance a b = 0 ↔ a = b) ∧
    ∀ c, editDistance a c ≤ editDistance a b + editDistance b c := by
  refine ⟨distanceInPlace?_eq a b, editDistance_eq a b, ?_, ?_, ?_, ?_⟩
  · rw [editDistance_eq]
    exact isLeast_leastEdits a.toList b.toList
  · rw [editDistance_eq, editDistance_eq]
    exact leastEdits_comm a.toList b.toList
  · rw [editDistance_eq, leastEdits_eq_zero_iff, String.toList_inj]
  · intro c
    rw [editDistance_eq, editDistance_eq, editDistance_eq]
    exact leastEdits_triangle a.toList b.toList c.toList

example : editDistance "kitten" "sitting" = 3 := by decide

end Suggestion

end MatchCompiler
