import MatchCompiler.Literal

/-
  This file decides which elements of a sequence the slots of
  a positional pattern read.

  Slots without a default always read an element. Elements
  beyond those go to the slots with a default, from the right
  inward, and the slots left over take their default. What is
  still left goes to the spread. Elements are then handed out
  from left to right.

  Key definitions include:
    * `ElementIndex`
    * `SlotSource`
    * `Resolution`
    * `SeqLayout`
    * `SeqLayout.accepts`
    * `SeqLayout.resolve`
    * `SeqLayout.resolveSaturated`

  Key theorems include:
    * `SeqLayout.required_add_defaulted`
    * `SeqLayout.length_assign`
    * `SeqLayout.isSome_resolve`
-/

------------------------------------------------------------
-- Slots And Layouts
------------------------------------------------------------

namespace MatchCompiler

/-
  Place of an element, counted from zero at the start or from
  one at the end.
-/
inductive ElementIndex where
| fromStart (index : Nat)
| fromEnd (index : Nat)
deriving DecidableEq

/- Where the value of a slot comes from. -/
inductive SlotSource where
| element (index : ElementIndex)
| default (value : Literal)
deriving DecidableEq

/- Whether a slot reads an element. -/
def SlotSource.isElement : SlotSource → Bool
| .element _ => true
| .default _ => false

/- Count an element of a sequence from its end. -/
def SlotSource.fromEnd
    (length : Nat) : SlotSource → SlotSource
| .element (.fromStart i) => .element (.fromEnd (length - i))
| source => source

/-
  The part of a sequence that a spread takes: from `start`
  up to `endFromEnd` elements before the end.
-/
structure SpreadRange where
  start : Nat
  endFromEnd : Nat
deriving DecidableEq

/- What each slot and the spread read. -/
structure Resolution where
  slots : List SlotSource
  spread : Option SpreadRange
deriving DecidableEq

/-
  The slots of a positional pattern, each with its default if
  it has one, and the slot in front of which a spread stands.
-/
structure SeqLayout where
  defaults : List (Option Literal)
  spreadAt : Option Nat
  spread_le : ∀ i ∈ spreadAt, i ≤ defaults.length

/- A layout; a spread past the last slot stands at the end. -/
def SeqLayout.ofSlots
    (defaults : List (Option Literal))
    (spreadAt : Option Nat) : SeqLayout where
  defaults := defaults
  spreadAt := spreadAt.map (min defaults.length)
  spread_le := by
    intro i h
    simp only [Option.mem_def, Option.map_eq_some_iff] at h
    obtain ⟨j, _, rfl⟩ := h
    exact Nat.min_le_left _ _

end MatchCompiler

------------------------------------------------------------
-- Accepted Lengths
------------------------------------------------------------

namespace MatchCompiler

namespace SeqLayout

/- Number of slots. -/
def slotCount (l : SeqLayout) : Nat :=
  l.defaults.length

/- Number of slots without a default. -/
def required (l : SeqLayout) : Nat :=
  l.defaults.countP Option.isNone

/- Number of slots with a default. -/
def defaulted (l : SeqLayout) : Nat :=
  l.defaults.countP Option.isSome

/- The least length that can match. -/
def minLength (l : SeqLayout) : Nat :=
  l.required

/- The greatest length that can match, if there is one. -/
def maxLength (l : SeqLayout) : Option Nat :=
  match l.spreadAt with
  | some _ => none
  | none => some (l.required + l.defaulted)

/- The length from which on every slot reads an element. -/
def saturatedLength (l : SeqLayout) : Nat :=
  l.required + l.defaulted

/- Whether a length can match. -/
def accepts
    (l : SeqLayout)
    (length : Nat) : Bool :=
  l.minLength ≤ length &&
    (l.maxLength.map (fun most => decide (length ≤ most))).getD true

end SeqLayout

end MatchCompiler

------------------------------------------------------------
-- Resolution
------------------------------------------------------------

namespace MatchCompiler

namespace SeqLayout

/-
  Hand out elements from `next` on. A slot with a default
  reads an element if `extra` elements reach that far from
  the right; `beyond` counts such slots to the right of the
  list.
-/
def assign
    (extra beyond : Nat) :
    Nat → List (Option Literal) → List SlotSource
| _, [] => []
| next, none :: rest =>
    .element (.fromStart next) :: assign extra beyond (next + 1) rest
| next, some value :: rest =>
    if rest.countP Option.isSome + beyond < extra then
      .element (.fromStart next) :: assign extra beyond (next + 1) rest
    else
      .default value :: assign extra beyond next rest

/-
  The sources of slots and spread for a sequence of a given
  length, if that length can match.
-/
def resolve
    (l : SeqLayout)
    (length : Nat) : Option Resolution :=
  if l.accepts length then
    let extra := length - l.required
    match l.spreadAt with
    | none =>
        some { slots := assign extra 0 0 l.defaults, spread := none }
    | some i =>
        let front := l.defaults.take i
        let back := l.defaults.drop i
        let taken := extra - l.defaulted
        let before :=
          assign extra (back.countP Option.isSome) 0 front
        let start := before.countP SlotSource.isElement
        some
          { slots := before ++ assign extra 0 (start + taken) back
            spread := some
              { start, endFromEnd := length - start - taken } }
  else
    none

/-
  The sources that serve every length from the saturated one
  on: the slots behind a spread count from the end.
-/
def resolveSaturated (l : SeqLayout) : Resolution :=
  let length := l.saturatedLength
  match l.resolve length with
  | none => { slots := [], spread := none }
  | some r =>
      match l.spreadAt with
      | none => r
      | some i =>
          { r with
            slots :=
              r.slots.take i ++
                (r.slots.drop i).map (SlotSource.fromEnd length) }

end SeqLayout

end MatchCompiler

------------------------------------------------------------
-- Properties Of Resolution
------------------------------------------------------------

namespace MatchCompiler

namespace SeqLayout

/- Each slot has a default or has none. -/
theorem required_add_defaulted
    (l : SeqLayout) :
    l.required + l.defaulted = l.slotCount := by
  unfold required defaulted slotCount
  induction l.defaults with
  | nil => rfl
  | cons d ds ih =>
      cases d with
      | none =>
          simp only [List.countP_cons, List.length_cons,
            Option.isNone_none, Option.isSome_none]
          simp only [if_true, Bool.false_eq_true, if_false]
          omega
      | some value =>
          simp only [List.countP_cons, List.length_cons,
            Option.isNone_some, Option.isSome_some]
          simp only [if_true, Bool.false_eq_true, if_false]
          omega

/- Every slot has one source. -/
theorem length_assign
    (extra beyond : Nat) :
    ∀ (next : Nat) (ds : List (Option Literal)),
      (assign extra beyond next ds).length = ds.length
| _, [] => rfl
| next, none :: ds => by
    simp only [assign, List.length_cons]
    rw [length_assign extra beyond (next + 1) ds]
| next, some value :: ds => by
    unfold assign
    split
    · simp only [List.length_cons]
      rw [length_assign extra beyond (next + 1) ds]
    · simp only [List.length_cons]
      rw [length_assign extra beyond next ds]

/- Exactly the lengths that can match have a resolution. -/
theorem isSome_resolve
    (l : SeqLayout)
    (length : Nat) :
    (l.resolve length).isSome = l.accepts length := by
  unfold resolve
  cases l.accepts length with
  | false => rfl
  | true =>
      cases l.spreadAt with
      | none => rfl
      | some i => rfl

end SeqLayout

end MatchCompiler
