import MatchCompiler.Interner
import Mathlib.Data.Finset.Card
import Mathlib.Data.List.Nodup

/-
  This file shows what holds of an interner in the course of
  any operations on it.

  The texts that have been met and the numbers below their
  count stand for one another, and what stands for what never
  changes. A text that is met first gets the next number.

  An interner can also be kept in two tables, one to find the
  numbers of texts and one to find the texts of numbers, whose
  numbers are machine words. It gives the same answers as long
  as there are as many words as texts.

  Key definitions include:
    * `InternerOp`
    * `InternerAnswer`
    * `textsMet`
    * `InternerTables`
    * `InternerTables.Inverse`
    * `InternerTables.Mirrors`

  Key theorems include:
    * `Interner.get?_afterAll`
    * `Interner.intern_eq_intern_iff`
    * `Interner.size_reached`
    * `InternerTables.numberSeen_afterAll`
    * `InternerTables.inverse_afterAll`
    * `InternerTables.Mirrors.answersTo_eq_iff`
    * `Interner.numbering_laws`
-/

------------------------------------------------------------
-- Operations
------------------------------------------------------------

namespace MatchCompiler

/- The operations on an interner. -/
inductive InternerOp where
| intern (s : String)
| get (s : String)
| lookup (n : UInt32)

/- What is answered to an operation. -/
inductive InternerAnswer where
| number (n : Nat)
| found (n : Option Nat)
| text (s : String)
| refused (message : String)
deriving DecidableEq

/- The text that an operation interns. -/
def InternerOp.interned? : InternerOp → Option String
| .intern s => some s
| _ => none

/- The texts met: the empty one and those that were interned. -/
def textsMet (ops : List InternerOp) : Finset String :=
  insert "" (ops.filterMap InternerOp.interned?).toFinset

theorem InternerOp.interned?_eq_some_iff
    {op : InternerOp}
    {s : String} :
    op.interned? = some s ↔ op = .intern s := by
  cases op <;> simp [interned?]

theorem mem_textsMet
    {ops : List InternerOp}
    {s : String} :
    s ∈ textsMet ops ↔ s = "" ∨ .intern s ∈ ops := by
  simp only [textsMet, Finset.mem_insert, List.mem_toFinset,
    List.mem_filterMap, InternerOp.interned?_eq_some_iff,
    exists_eq_right]

section

variable {I : Type}
variable (step : I → InternerOp → I × InternerAnswer)

/- What operations make of an interner. -/
def afterAll
    (i : I)
    (ops : List InternerOp) : I :=
  ops.foldl (fun i op => (step i op).1) i

/- What is answered to operations, one after the other. -/
def answersTo : I → List InternerOp → List InternerAnswer
| _, [] => []
| i, op :: ops => (step i op).2 :: answersTo (step i op).1 ops

variable {step}

/- What every operation keeps holds after any operations. -/
theorem afterAll_keeps
    {P : I → Prop}
    (hStep : ∀ i op, P i → P (step i op).1)
    {i : I}
    (h : P i)
    (ops : List InternerOp) :
    P (afterAll step i ops) :=
  List.foldlRecOn ops _ h fun i hKept op _ => hStep i op hKept

theorem afterAll_append
    (i : I)
    (ops later : List InternerOp) :
    afterAll step i (ops ++ later) =
      afterAll step (afterAll step i ops) later :=
  List.foldl_append

end

namespace Interner

/- Carry out an operation. -/
def step
    (i : Interner) : InternerOp → Interner × InternerAnswer
| .intern s => ((i.intern s).1, .number (i.intern s).2)
| .get s => (i, .found (i.get? s))
| .lookup n => (i, .text (i.lookup n.toNat))

/- An interner that is empty at first, after operations. -/
def reached (ops : List InternerOp) : Interner :=
  afterAll step empty ops

end Interner

end MatchCompiler

------------------------------------------------------------
-- Texts And Numbers
------------------------------------------------------------

namespace MatchCompiler

namespace Interner

variable {i : Interner}
variable {s : String}
variable {n : Nat}

theorem intern_of_get?
    (h : i.get? s = some n) :
    i.intern s = (i, n) := by
  unfold intern
  split
  · rename_i m hGet
    rw [Option.some.inj (hGet.symm.trans h)]
  · rename_i hGet
    cases hGet.symm.trans h

theorem intern_of_new
    (h : i.get? s = none) :
    i.intern s = (i.append s (get?_eq_none_iff.mp h), i.size) := by
  unfold intern
  split
  · rename_i m hGet
    cases hGet.symm.trans h
  · rfl

theorem getElem?_texts_eq_some_iff :
    i.texts[n]? = some s ↔ i.get? s = some n := by
  rw [get?_eq_some_iff, lookup, List.getD_eq_getElem?_getD]
  constructor
  · intro hText
    rcases List.getElem?_eq_some_iff.mp hText with ⟨hLt, -⟩
    exact ⟨hLt, by rw [hText, Option.getD_some]⟩
  · rintro ⟨hLt, hText⟩
    rw [List.getElem?_eq_getElem hLt, Option.getD_some] at hText
    rw [List.getElem?_eq_getElem hLt, hText]

theorem size_append
    (h : s ∉ i.texts) :
    (i.append s h).size = i.size + 1 :=
  List.length_append

theorem size_le_intern
    (i : Interner)
    (s : String) :
    i.size ≤ (i.intern s).1.size := by
  cases h : i.get? s with
  | some n => rw [intern_of_get? h]
  | none =>
      rw [intern_of_new h, size_append]
      exact Nat.le_succ _

/- The number that a text is given is its number from then on. -/
theorem get?_intern
    (i : Interner)
    (s : String) :
    (i.intern s).1.get? s = some (i.intern s).2 := by
  refine get?_eq_some_iff.mpr ⟨?_, lookup_intern i s⟩
  cases h : i.get? s with
  | some n =>
      rw [intern_of_get? h]
      exact (get?_eq_some_iff.mp h).1
  | none =>
      rw [intern_of_new h, size_append]
      exact Nat.lt_succ_self _

theorem size_le_step
    (i : Interner)
    (op : InternerOp) :
    i.size ≤ (i.step op).1.size := by
  cases op with
  | intern s => exact size_le_intern i s
  | get s => exact Nat.le_refl _
  | lookup n => exact Nat.le_refl _

theorem get?_step
    (h : i.get? s = some n)
    (op : InternerOp) :
    (i.step op).1.get? s = some n := by
  cases op with
  | get u => exact h
  | lookup m => exact h
  | intern u =>
      rcases get?_eq_some_iff.mp h with ⟨hLt, hText⟩
      refine get?_eq_some_iff.mpr
        ⟨Nat.lt_of_lt_of_le hLt (size_le_intern i u), ?_⟩
      exact (lookup_intern_of_lt i u hLt).trans hText

theorem mem_texts_step
    {op : InternerOp} :
    s ∈ (i.step op).1.texts ↔ s ∈ i.texts ∨ op = .intern s := by
  cases op with
  | get u => simp [step]
  | lookup m => simp [step]
  | intern u =>
      rw [InternerOp.intern.injEq]
      cases h : i.get? u with
      | some n =>
          have hHeld : u ∈ i.texts := by
            rw [← Decidable.not_not (p := u ∈ i.texts), ← get?_eq_none_iff, h]
            exact Option.some_ne_none n
          rw [step, intern_of_get? h]
          exact ⟨.inl, fun hOr => hOr.elim id fun hSame => hSame ▸ hHeld⟩
      | none =>
          rw [step, intern_of_new h, append, List.mem_append,
            List.mem_singleton, eq_comm (a := s)]

theorem size_le_afterAll
    (i : Interner)
    (ops : List InternerOp) :
    i.size ≤ (afterAll step i ops).size :=
  afterAll_keeps (P := fun j : Interner => i.size ≤ j.size)
    (fun j op hKept => hKept.trans (size_le_step j op)) (Nat.le_refl _) ops

/- The number of a text never changes. -/
theorem get?_afterAll
    (h : i.get? s = some n)
    (ops : List InternerOp) :
    (afterAll step i ops).get? s = some n :=
  afterAll_keeps (P := fun j : Interner => j.get? s = some n)
    (fun _ op hKept => get?_step hKept op) h ops

theorem mem_texts_afterAll
    {ops : List InternerOp} :
    s ∈ (afterAll step i ops).texts ↔ s ∈ i.texts ∨ .intern s ∈ ops := by
  induction ops generalizing i with
  | nil => simp [afterAll]
  | cons op ops ih =>
      rw [afterAll, List.foldl_cons, ← afterAll, ih, mem_texts_step,
        List.mem_cons, or_assoc, eq_comm (a := op)]

/- The interner holds the texts that have been met. -/
theorem mem_texts_reached
    {ops : List InternerOp} :
    s ∈ (reached ops).texts ↔ s ∈ textsMet ops := by
  rw [reached, mem_texts_afterAll, mem_textsMet]
  simp [empty]

theorem size_reached
    (ops : List InternerOp) :
    (reached ops).size = (textsMet ops).card := by
  rw [size, ← List.toFinset_card_of_nodup (reached ops).nodup]
  congr 1
  ext s
  rw [List.mem_toFinset, mem_texts_reached]

/- A text keeps the number that it was given. -/
theorem get?_reached_intern
    (ops later : List InternerOp)
    (s : String) :
    (reached (ops ++ .intern s :: later)).get? s =
      some ((reached ops).intern s).2 := by
  rw [reached, afterAll_append]
  exact get?_afterAll (get?_intern _ s) later

/- Two texts are given one number only if they are one text. -/
theorem intern_eq_intern_iff
    (ops later : List InternerOp)
    (s u : String) :
    ((reached ops).intern s).2 =
        ((reached (ops ++ .intern s :: later)).intern u).2 ↔
      s = u := by
  have hFirst := get?_reached_intern ops later s
  constructor
  · intro hSame
    have hKept := get?_step hFirst (.intern u)
    have hSecond := get?_intern (reached (ops ++ .intern s :: later)) u
    rw [← hSame] at hSecond
    exact (lookup_of_get? hKept).symm.trans (lookup_of_get? hSecond)
  · rintro rfl
    rw [intern_of_get? hFirst]

end Interner

end MatchCompiler

------------------------------------------------------------
-- Two Tables
------------------------------------------------------------

namespace MatchCompiler

/-
  An interner in two tables, one to find the numbers of texts
  and one to find the texts of numbers. Numbers are words.
-/
structure InternerTables where
  numbers : Std.HashMap String UInt32
  texts : Array String

/- All words are the numbers of texts. -/
structure OutOfNumbers where
  count : Nat

def OutOfNumbers.message (e : OutOfNumbers) : String :=
  s!"interner exceeded capacity: {e.count} strings, max is {UInt32.size - 1}"

namespace InternerTables

/- Only the empty text is interned. -/
def empty : InternerTables where
  numbers := (∅ : Std.HashMap String UInt32).insert "" 0
  texts := #[""]

/- The number of a text that has been interned. -/
def get?
    (t : InternerTables)
    (s : String) : Option UInt32 :=
  t.numbers[s]?

/- The text of a number; unknown numbers have the empty text. -/
def lookup
    (t : InternerTables)
    (n : UInt32) : String :=
  t.texts.getD n.toNat ""

/- Enter a text with the next number in both tables. -/
def append
    (t : InternerTables)
    (s : String)
    (h : t.texts.size < UInt32.size) : InternerTables where
  numbers := t.numbers.insert s (.ofNatLT t.texts.size h)
  texts := t.texts.push s

/-
  Number a text that was not found. It is looked for again, as
  it may have been entered by others since then.
-/
def numberMissed
    (t : InternerTables)
    (s : String) : Except OutOfNumbers (InternerTables × UInt32) :=
  match t.get? s with
  | some n => .ok (t, n)
  | none =>
      if h : t.texts.size < UInt32.size then
        .ok (t.append s h, .ofNatLT t.texts.size h)
      else
        .error { count := t.texts.size }

/- Number a text by what was found when it was looked for. -/
def numberSeen
    (t : InternerTables)
    (seen : Option UInt32)
    (s : String) : Except OutOfNumbers (InternerTables × UInt32) :=
  match seen with
  | some n => .ok (t, n)
  | none => t.numberMissed s

/- The number of a text, a new one if it is met first. -/
def intern
    (t : InternerTables)
    (s : String) : Except OutOfNumbers (InternerTables × UInt32) :=
  t.numberSeen (t.get? s) s

/- Carry out an operation. A refusal changes nothing. -/
def step
    (t : InternerTables) : InternerOp → InternerTables × InternerAnswer
| .intern s =>
    match t.intern s with
    | .ok (u, n) => (u, .number n.toNat)
    | .error e => (t, .refused e.message)
| .get s => (t, .found ((t.get? s).map UInt32.toNat))
| .lookup n => (t, .text (t.lookup n))

variable {t : InternerTables}
variable {s u : String}
variable {n : UInt32}

/- To look for a text once more makes no difference. -/
theorem intern_eq_numberMissed
    (t : InternerTables)
    (s : String) :
    t.intern s = t.numberMissed s := by
  unfold intern numberSeen numberMissed
  cases t.get? s <;> rfl

theorem step_intern_of_get?
    (h : t.get? s = some n) :
    t.step (.intern s) = (t, .number n.toNat) := by
  rw [step, intern, h, numberSeen]

theorem step_intern_of_room
    (h : t.get? s = none)
    (hRoom : t.texts.size < UInt32.size) :
    t.step (.intern s) = (t.append s hRoom, .number t.texts.size) := by
  rw [step, intern_eq_numberMissed, numberMissed, h]
  simp only [dif_pos hRoom, UInt32.toNat_ofNatLT]

theorem step_intern_of_full
    (h : t.get? s = none)
    (hFull : ¬ t.texts.size < UInt32.size) :
    t.step (.intern s) =
      (t, .refused (OutOfNumbers.message ⟨t.texts.size⟩)) := by
  rw [step, intern_eq_numberMissed, numberMissed, h]
  simp only [dif_neg hFull]

/- What is found is what was entered, or was found before. -/
theorem get?_append_iff
    (hNew : t.get? s = none)
    (hRoom : t.texts.size < UInt32.size) :
    (t.append s hRoom).get? u = some n ↔
      (s = u ∧ t.texts.size = n.toNat) ∨ t.get? u = some n := by
  have hNumber :
      UInt32.ofNatLT t.texts.size hRoom = n ↔ t.texts.size = n.toNat := by
    rw [← UInt32.toNat_inj, UInt32.toNat_ofNatLT]
  unfold get? at hNew ⊢
  rw [append, Std.HashMap.getElem?_insert]
  by_cases hText : s = u
  · subst hText
    simp [hNew, hNumber]
  · simp [hText]

theorem getElem?_texts_append_iff
    (hRoom : t.texts.size < UInt32.size)
    {k : Nat} :
    (t.append s hRoom).texts[k]? = some u ↔
      (s = u ∧ t.texts.size = k) ∨ t.texts[k]? = some u := by
  rw [append, Array.getElem?_push]
  by_cases hLast : k = t.texts.size
  · subst hLast
    simp
  · simp [hLast, Ne.symm hLast]

/-
  An operation finds, enters or refuses: the tables stay as
  they are, or a text that is in neither of them is entered.
-/
theorem step_cases
    (t : InternerTables)
    (op : InternerOp) :
    (t.step op).1 = t ∨
      ∃ s, ∃ hRoom : t.texts.size < UInt32.size,
        t.get? s = none ∧ (t.step op).1 = t.append s hRoom := by
  cases op with
  | get s => exact .inl rfl
  | lookup n => exact .inl rfl
  | intern s =>
      cases hGet : t.get? s with
      | some n => exact .inl (congrArg Prod.fst (step_intern_of_get? hGet))
      | none =>
          by_cases hRoom : t.texts.size < UInt32.size
          · refine .inr ⟨s, hRoom, hGet, ?_⟩
            exact congrArg Prod.fst (step_intern_of_room hGet hRoom)
          · exact .inl (congrArg Prod.fst (step_intern_of_full hGet hRoom))

/- The number of a text never changes. -/
theorem get?_afterAll
    (h : t.get? s = some n)
    (ops : List InternerOp) :
    (afterAll step t ops).get? s = some n := by
  refine afterAll_keeps (P := fun t : InternerTables => t.get? s = some n)
    (fun t op hKept => ?_) h ops
  rcases step_cases t op with hSame | ⟨u, hRoom, hNew, hNext⟩
  · rw [hSame, hKept]
  · rw [hNext]
    exact (get?_append_iff hNew hRoom).mpr (.inr hKept)

/-
  What others do after a text has been looked for does no
  harm: it is numbered as if it were looked for only now.
-/
theorem numberSeen_afterAll
    (t : InternerTables)
    (s : String)
    (between : List InternerOp) :
    (afterAll step t between).numberSeen (t.get? s) s =
      (afterAll step t between).intern s := by
  cases hGet : t.get? s with
  | some n => rw [intern, get?_afterAll hGet]
  | none => rw [intern_eq_numberMissed, numberSeen]

/-
  The tables are inverse to one another, and there is a word
  for every text.
-/
structure Inverse (t : InternerTables) : Prop where
  get?_iff :
    ∀ s n, t.get? s = some n ↔ t.texts[n.toNat]? = some s
  size_le : t.texts.size ≤ UInt32.size

theorem inverse_empty : empty.Inverse where
  get?_iff s n := by
    have hNumber : 0 = n ↔ n.toNat = 0 := by
      rw [eq_comm, ← UInt32.toNat_inj, UInt32.toNat_zero]
    rw [empty, get?, Std.HashMap.getElem?_insert, List.getElem?_toArray,
      List.getElem?_singleton]
    by_cases hText : "" = s
    · simp [hText, hNumber]
    · simp [hText]
  size_le := by decide

namespace Inverse

/- A text without a number is entered under the next number. -/
theorem append
    (h : t.Inverse)
    (hNew : t.get? s = none)
    (hRoom : t.texts.size < UInt32.size) :
    (t.append s hRoom).Inverse where
  get?_iff u n := by
    rw [get?_append_iff hNew, getElem?_texts_append_iff, h.get?_iff]
  size_le := by
    rw [InternerTables.append, Array.size_push]
    exact hRoom

theorem step
    (h : t.Inverse)
    (op : InternerOp) :
    (t.step op).1.Inverse := by
  rcases step_cases t op with hSame | ⟨s, hRoom, hNew, hNext⟩
  · rwa [hSame]
  · rw [hNext]
    exact h.append hNew hRoom

end Inverse

/-
  A text is refused only if every word is the number of some
  other text.
-/
theorem Inverse.intern_eq_error_iff
    (h : t.Inverse)
    {e : OutOfNumbers} :
    t.intern s = .error e ↔
      t.get? s = none ∧ t.texts.size = UInt32.size ∧
        e.count = UInt32.size := by
  rw [intern_eq_numberMissed, numberMissed]
  cases hGet : t.get? s with
  | some n => exact iff_of_false nofun nofun
  | none =>
      have hLe := h.size_le
      by_cases hRoom : t.texts.size < UInt32.size
      · simp [hRoom, Nat.ne_of_lt hRoom]
      · have hFull : t.texts.size = UInt32.size := by omega
        cases e
        simp [hFull, eq_comm]

/- The tables stay inverse, whatever is refused. -/
theorem inverse_afterAll
    (ops : List InternerOp) :
    (afterAll step empty ops).Inverse :=
  afterAll_keeps (fun _ op h => h.step op) inverse_empty ops

end InternerTables

end MatchCompiler

------------------------------------------------------------
-- Tables And Interners
------------------------------------------------------------

namespace MatchCompiler

namespace InternerTables

variable {t : InternerTables}
variable {i : Interner}

/- Tables with the texts of an interner in the same order. -/
structure Mirrors
    (t : InternerTables)
    (i : Interner) : Prop where
  inverse : t.Inverse
  texts_eq : t.texts.toList = i.texts

theorem mirrors_empty : empty.Mirrors .empty :=
  ⟨inverse_empty, rfl⟩

namespace Mirrors

theorem size_eq
    (h : t.Mirrors i) :
    t.texts.size = i.size := by
  rw [Interner.size, ← h.texts_eq, Array.length_toList]

theorem lookup_eq
    (h : t.Mirrors i)
    (n : UInt32) :
    t.lookup n = i.lookup n.toNat := by
  rw [lookup, Interner.lookup, Array.getD_eq_getD_getElem?,
    ← Array.getElem?_toList, h.texts_eq, List.getD_eq_getElem?_getD]

theorem get?_iff
    (h : t.Mirrors i)
    {s : String}
    {n : UInt32} :
    t.get? s = some n ↔ i.get? s = some n.toNat := by
  rw [h.inverse.get?_iff, ← Array.getElem?_toList, h.texts_eq,
    Interner.getElem?_texts_eq_some_iff]

/- There is a word for every number of the interner. -/
theorem get?_eq
    (h : t.Mirrors i)
    (s : String) :
    (t.get? s).map UInt32.toNat = i.get? s := by
  cases hGet : i.get? s with
  | some k =>
      have hLt : k < UInt32.size := by
        have hHeld := (Interner.get?_eq_some_iff.mp hGet).1
        rw [← h.size_eq] at hHeld
        exact Nat.lt_of_lt_of_le hHeld h.inverse.size_le
      have hWord : t.get? s = some (.ofNatLT k hLt) := by
        rw [h.get?_iff, UInt32.toNat_ofNatLT, hGet]
      rw [hWord, Option.map_some, UInt32.toNat_ofNatLT]
  | none =>
      rw [Option.map_eq_none_iff, Option.eq_none_iff_forall_ne_some]
      intro n hWord
      cases hGet.symm.trans (h.get?_iff.mp hWord)

/-
  The tables answer an operation as the interner does and
  still mirror it, or there is no word for its last text.
-/
theorem step
    (h : t.Mirrors i)
    (op : InternerOp) :
    ((t.step op).2 = (i.step op).2 ∧
        (t.step op).1.Mirrors (i.step op).1) ∨
      ((t.step op).2 ≠ (i.step op).2 ∧
        UInt32.size < (i.step op).1.size) := by
  cases op with
  | get s => exact .inl ⟨congrArg InternerAnswer.found (h.get?_eq s), h⟩
  | lookup n => exact .inl ⟨congrArg InternerAnswer.text (h.lookup_eq n), h⟩
  | intern s =>
      have hSought := h.get?_eq s
      cases hGet : t.get? s with
      | some n =>
          rw [hGet, Option.map_some] at hSought
          rw [step_intern_of_get? hGet, Interner.step,
            Interner.intern_of_get? hSought.symm]
          exact .inl ⟨rfl, h⟩
      | none =>
          rw [hGet, Option.map_none] at hSought
          rw [Interner.step, Interner.intern_of_new hSought.symm]
          by_cases hRoom : t.texts.size < UInt32.size
          · rw [step_intern_of_room hGet hRoom, h.size_eq]
            refine .inl ⟨rfl, h.inverse.append hGet hRoom, ?_⟩
            rw [append, Array.toList_push, h.texts_eq, Interner.append]
          · rw [step_intern_of_full hGet hRoom]
            refine .inr ⟨?_, ?_⟩
            · intro hSame
              cases hSame
            · rw [Interner.size_append, ← h.size_eq]
              exact Nat.lt_succ_of_le (Nat.le_of_not_lt hRoom)

/- The answers are the same just if there is a word for every text. -/
theorem answersTo_eq_iff
    (h : t.Mirrors i)
    (ops : List InternerOp) :
    answersTo InternerTables.step t ops = answersTo Interner.step i ops ↔
      (afterAll Interner.step i ops).size ≤ UInt32.size := by
  induction ops generalizing t i with
  | nil =>
      refine iff_of_true rfl ?_
      rw [afterAll, List.foldl_nil, ← h.size_eq]
      exact h.inverse.size_le
  | cons op ops ih =>
      rw [answersTo, answersTo, List.cons.injEq, afterAll, List.foldl_cons,
        ← afterAll]
      rcases h.step op with ⟨hSame, hNext⟩ | ⟨hApart, hOver⟩
      · rw [and_iff_right hSame, ih hNext]
      · refine iff_of_false (fun hBoth => hApart hBoth.1) (Nat.not_le.mpr ?_)
        exact Nat.lt_of_lt_of_le hOver (Interner.size_le_afterAll _ ops)

end Mirrors

end InternerTables

namespace Interner

/-
  Two texts are given one number, whatever is asked in
  between, just if they are one text. From then on the number
  leads to the text and the text to the number, and the text
  is given the number again. The texts that have a number are
  the empty one and those that were interned, and a text that
  has none gets as its number the count of these. The numbers
  below that count are the numbers of texts; any other leads
  to the empty text.

  Tables that number texts by words are inverse to one
  another, whatever is asked of them. They answer the same if,
  and only if, there are not more texts than words.
-/
theorem numbering_laws
    (ops later : List InternerOp)
    (s u : String)
    (n : Nat) :
    (((reached ops).intern s).2 =
        ((reached (ops ++ .intern s :: later)).intern u).2 ↔
      s = u) ∧
    (reached (ops ++ .intern s :: later)).lookup
        ((reached ops).intern s).2 = s ∧
    (reached (ops ++ .intern s :: later)).get? s =
      some ((reached ops).intern s).2 ∧
    ((reached ops).get? s = some n →
      (reached ops).intern s = (reached ops, n)) ∧
    (((reached ops).get? s).isSome ↔ s = "" ∨ .intern s ∈ ops) ∧
    ((reached ops).get? s = none →
      ((reached ops).intern s).2 = (textsMet ops).card) ∧
    ((∃ v, (reached ops).get? v = some n) ↔ n < (textsMet ops).card) ∧
    ((∀ v, (reached ops).get? v ≠ some n) → (reached ops).lookup n = "") ∧
    (afterAll InternerTables.step .empty ops).Inverse ∧
    (answersTo InternerTables.step .empty ops =
        answersTo Interner.step .empty ops ↔
      (textsMet ops).card ≤ UInt32.size) := by
  have hLater := get?_reached_intern ops later s
  refine ⟨intern_eq_intern_iff ops later s u, lookup_of_get? hLater, hLater,
    intern_of_get?, ?_, ?_, ?_, ?_, InternerTables.inverse_afterAll ops, ?_⟩
  · rw [Option.isSome_iff_ne_none, Ne, get?_eq_none_iff, not_not,
      mem_texts_reached, mem_textsMet]
  · intro hNew
    rw [intern_of_new hNew, size_reached]
  · rw [← size_reached]
    constructor
    · rintro ⟨v, hGet⟩
      exact (get?_eq_some_iff.mp hGet).1
    · intro hLt
      exact ⟨_, get?_eq_some_iff.mpr ⟨hLt, rfl⟩⟩
  · intro hOther
    have hOut : (reached ops).size ≤ n := by
      by_contra hLt
      exact hOther _ (get?_eq_some_iff.mpr ⟨Nat.not_le.mp hLt, rfl⟩)
    rw [lookup, List.getD_eq_getElem?_getD, List.getElem?_eq_none hOut,
      Option.getD_none]
  · rw [InternerTables.mirrors_empty.answersTo_eq_iff, ← size_reached,
      reached]

/- One text is interned twice and another is only looked for. -/
def kindTwice : List InternerOp :=
  [.intern "kind", .get "name", .lookup 7, .intern "", .intern "kind"]

/- The text that was looked for is interned next, and found again. -/
theorem kindTwice_numbered :
    (reached kindTwice).get? "name" = none ∧
    ((reached kindTwice).intern "name").2 = 2 ∧
    (reached (kindTwice ++ [.intern "name", .intern "Kind"])).lookup 2 =
      "name" ∧
    ((reached (kindTwice ++ [.intern "name", .intern "Kind"])).intern
      "kind").2 ≠ 2 ∧
    (reached kindTwice).lookup 7 = "" ∧
    answersTo InternerTables.step .empty kindTwice =
      [.number 1, .found none, .text "", .number 0, .number 1] := by
  have hCard : (textsMet kindTwice).card = 2 := by decide
  have hNew : (reached kindTwice).get? "name" = none := by decide
  rcases numbering_laws kindTwice [.intern "Kind"] "name" "kind" 7 with
    ⟨hApart, hText, -, -, -, hNext, hNumbers, hOther, -, hTables⟩
  have hNumber := hNext hNew
  rw [hCard] at hNumber hNumbers hTables
  rw [hNumber] at hApart hText
  refine ⟨hNew, hNumber, hText, fun hSame => ?_, hOther fun v hGet => ?_, ?_⟩
  · exact absurd (hApart.mp hSame.symm) (by decide)
  · exact absurd (hNumbers.mp ⟨v, hGet⟩) (by decide)
  · rw [hTables.mpr (by decide)]
    decide

end Interner

end MatchCompiler
