/-
  This file defines interners, which number texts densely in
  the order in which they are first met. The empty text has
  number zero from the start, and no text has two numbers.

  Key definitions include:
    * `Interner`
    * `Interner.empty`
    * `Interner.get?`
    * `Interner.lookup`
    * `Interner.intern`

  Key theorems include:
    * `Interner.get?_eq_none_iff`
    * `Interner.lookup_of_get?`
    * `Interner.get?_eq_some_iff`
    * `Interner.lookup_intern_of_lt`
    * `Interner.lookup_intern`
-/

------------------------------------------------------------
-- Interners
------------------------------------------------------------

namespace MatchCompiler

/- The interned texts; a text's number is its position. -/
structure Interner where
  texts : List String
  nodup : texts.Nodup
  first : texts.head? = some ""

namespace Interner

/- Only the empty text is interned. -/
def empty : Interner where
  texts := [""]
  nodup := by simp
  first := rfl

/- The number of a text that has been interned. -/
def get?
    (i : Interner)
    (s : String) : Option Nat :=
  i.texts.idxOf? s

/- The text of a number; unknown numbers have the empty text. -/
def lookup
    (i : Interner)
    (n : Nat) : String :=
  i.texts.getD n ""

/- Number of texts. -/
def size (i : Interner) : Nat :=
  i.texts.length

/- Whether nothing but the empty text is interned. -/
def isEmpty (i : Interner) : Bool :=
  i.size ≤ 1

/- A text without a number has not been interned. -/
theorem get?_eq_none_iff
    {i : Interner}
    {s : String} :
    i.get? s = none ↔ s ∉ i.texts := by
  unfold get?
  exact List.idxOf?_eq_none_iff

/- Give the next number to a text that has none. -/
def append
    (i : Interner)
    (s : String)
    (h : s ∉ i.texts) : Interner where
  texts := i.texts ++ [s]
  nodup := by
    rw [List.nodup_append]
    refine ⟨i.nodup, by simp, ?_⟩
    intro t ht u hu hEq
    have hu' : u = s := by simpa using hu
    exact h (hu' ▸ hEq ▸ ht)
  first := by
    rw [List.head?_append, i.first]
    rfl

/- The number of a text, a new one if it is met first. -/
def intern
    (i : Interner)
    (s : String) : Interner × Nat :=
  match h : i.get? s with
  | some n => (i, n)
  | none => (i.append s (get?_eq_none_iff.mp h), i.size)

end Interner

end MatchCompiler

------------------------------------------------------------
-- Properties Of Interning
------------------------------------------------------------

namespace MatchCompiler

namespace Interner

/- The number of a text leads back to the text. -/
theorem lookup_of_get?
    {i : Interner}
    {s : String}
    {n : Nat}
    (h : i.get? s = some n) :
    i.lookup n = s := by
  unfold get? at h
  rcases List.idxOf?_eq_some_iff.mp h with
    ⟨hn, hGet, _⟩
  unfold lookup
  rw [List.getD_eq_getElem?_getD, List.getElem?_eq_getElem hn, hGet]
  rfl

/- A number belongs to the text at its place. -/
theorem get?_eq_some_iff
    {i : Interner}
    {s : String}
    {n : Nat} :
    i.get? s = some n ↔ n < i.size ∧ i.lookup n = s := by
  constructor
  · intro hGet
    rcases List.idxOf?_eq_some_iff.mp hGet with ⟨hLt, -, -⟩
    exact ⟨hLt, lookup_of_get? hGet⟩
  · rintro ⟨hLt, hText⟩
    rw [lookup, List.getD_eq_getElem?_getD, List.getElem?_eq_getElem hLt,
      Option.getD_some] at hText
    refine List.idxOf?_eq_some_iff.mpr ⟨hLt, hText, fun j hj hSame => ?_⟩
    have hPlaces :=
      (List.getElem_inj i.nodup).mp (hSame.trans hText.symm)
    exact Nat.ne_of_lt hj hPlaces

/- Interning keeps the texts of the numbers given before. -/
theorem lookup_intern_of_lt
    (i : Interner)
    (s : String)
    {n : Nat}
    (h : n < i.size) :
    (i.intern s).1.lookup n = i.lookup n := by
  unfold intern
  split
  · rfl
  · simp only [lookup, append, List.getD_eq_getElem?_getD]
    rw [List.getElem?_append_left h]

/- An interned text is found under its number. -/
theorem lookup_intern
    (i : Interner)
    (s : String) :
    (i.intern s).1.lookup (i.intern s).2 = s := by
  unfold intern
  split
  · rename_i n h
    exact lookup_of_get? h
  · simp [lookup, append, size, List.getD_eq_getElem?_getD]

end Interner

end MatchCompiler
