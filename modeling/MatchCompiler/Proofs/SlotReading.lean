import MatchCompiler.Proofs.SeqReading
import Mathlib.Data.List.Forall2

/-
  This file shows that one list of accesses serves sequences
  of every length.

  The accesses are made once, from the resolution of the
  saturated length and from those of the shorter lengths
  where something differs. On a sequence of any length the
  length test holds exactly if the length can match, and
  then slots and spread are read as the resolution of that
  very length says.

  Key definitions include:
    * `SlotSource.value?`
    * `SpreadRange.value`
    * `SeqLayout.ReadsAs`

  Key theorems include:
    * `SeqLayout.eval_lengthTest`
    * `SeqLayout.resolveSaturated_assigns`
    * `SeqLayout.readsAs_of_resolve`
    * `SeqLayout.accesses_readAs_resolve`
-/

------------------------------------------------------------
-- What A Resolution Assigns
------------------------------------------------------------

namespace MatchCompiler

/- The value that a source assigns to a slot. -/
def SlotSource.value?
    (items : List Value) : SlotSource → Option Value
| .element i => Value.itemAt? items i
| .default value => some (.ofLiteral value)

/- The slice that a range assigns to a spread. -/
def SpreadRange.value
    (items : List Value)
    (range : SpreadRange) : Value :=
  .seq ((items.take (items.length - range.endFromEnd)).drop range.start)

variable {v : Value}
variable {items : List Value}

/- What a slot reads is what its source assigns. -/
theorem Value.toOption_readSlot
    (h : v.items? = Option.some items)
    (source : SlotSource) :
    (v.readSlot source).toOption = source.value? items := by
  cases source with
  | element i =>
      change (v.readItem i).toOption = itemAt? items i
      rw [readItem_eq h]
      cases itemAt? items i <;> rfl
  | default value => rfl

theorem Value.readSlot_eq
    (h : v.items? = Option.some items)
    {source : SlotSource}
    {w : Value}
    (hValue : source.value? items = Option.some w) :
    v.readSlot source = .ok w := by
  rw [← toOption_readSlot h] at hValue
  rcases hRead : v.readSlot source with e | u
  · rw [hRead] at hValue
    cases hValue
  · rw [hRead] at hValue
    cases hValue
    rfl

theorem Value.readSlice_eq
    (h : v.items? = Option.some items)
    (range : SpreadRange) :
    v.readSlice range = .ok (range.value items) := by
  unfold readSlice readItems
  rw [h]
  rfl

namespace SeqLayout

variable {l : SeqLayout}
variable {r : Resolution}

/- A resolution assigns a value to every slot. -/
theorem exists_value_of_mem_resolve
    (h : l.resolve items.length = some r)
    {source : SlotSource}
    (hMem : source ∈ r.slots) :
    ∃ w, source.value? items = some w := by
  cases source with
  | element i =>
      rcases lt_of_mem_resolve h hMem with ⟨k, hLess, rfl⟩
      exact ⟨items[k], List.getElem?_eq_getElem hLess⟩
  | default value => exact ⟨.ofLiteral value, rfl⟩

end SeqLayout

end MatchCompiler

------------------------------------------------------------
-- Accesses For All Lengths
------------------------------------------------------------

namespace MatchCompiler

namespace SeqLayout

variable {l : SeqLayout}
variable {root : Value}
variable {c : Choices}
variable {a : Access}
variable {v : Value}
variable {items : List Value}
variable {r : Resolution}

/-
  The length test of a layout or, without one, the test that
  always holds.
-/
def lengthTest
    (l : SeqLayout)
    (a : Access) : Test :=
  (l.lengthTest? a).getD .always

/- The length test of a layout asks for the length only. -/
theorem isLeaf_lengthTest
    (l : SeqLayout)
    (a : Access) :
    (l.lengthTest a).IsLeaf := by
  unfold lengthTest
  rcases h : l.lengthTest? a with _ | t
  · trivial
  · have hNone :
        Lowered.seqAccesses l a none =
          some (l.lengthTest? a, l.slotAccesses a, l.spreadAccess? a) :=
      rfl
    exact Lowered.isLeaf_of_seqAccesses hNone t h

/- Run on a sequence, the test says whether the length can match. -/
theorem eval_lengthTest
    {σ : Type}
    (hRead : a.resolve root c = .ok v)
    (hItems : v.items? = some items)
    (l : SeqLayout)
    (host : GuardHost σ)
    (bindings : AccessBindings)
    (s : σ) :
    (l.lengthTest a).eval host root bindings (c, s) =
      (.ok (l.accepts items.length), (c, s)) := by
  rw [Test.eval_leaf host root bindings (l.isLeaf_lengthTest a),
    ← reading_lengthTest? hRead hItems]
  unfold lengthTest
  cases l.lengthTest? a <;> rfl

/-
  The accesses of slots and spread lead to what a resolution
  assigns.
-/
structure ReadsAs
    (l : SeqLayout)
    (root : Value)
    (c : Choices)
    (a : Access)
    (items : List Value)
    (r : Resolution) : Prop where
  slots :
    List.Forall₂
      (fun source b =>
        ∃ w, source.value? items = some w ∧
          b.resolve root c = .ok w)
      r.slots (l.slotAccesses a)
  spread :
    (l.spreadAccess? a).map (Access.resolve root c) =
      r.spread.map fun range => .ok (range.value items)

/-
  From the saturated length on, the one resolution assigns
  what that of the length assigns.
-/
theorem resolveSaturated_assigns
    (hResolve : l.resolve items.length = some r)
    (h : l.saturatedLength ≤ items.length) :
    l.resolveSaturated.slots.map (SlotSource.value? items) =
      r.slots.map (SlotSource.value? items) ∧
    l.resolveSaturated.spread = r.spread := by
  rcases resolveSaturated_reads (v := .seq items) rfl hResolve h with
    ⟨hSlots, hSpread⟩
  have hAssigned :
      SlotSource.value? items =
        fun source => ((Value.seq items).readSlot source).toOption :=
    funext fun source => (Value.toOption_readSlot rfl source).symm
  have hOptions := congrArg (List.map Except.toOption) hSlots
  rw [List.map_map, List.map_map] at hOptions
  rw [hAssigned]
  exact ⟨hOptions, hSpread⟩

/-
  On a length that can match, every slot has a value and its
  access leads to it; the access of the spread leads to the
  slice.
-/
theorem readsAs_of_resolve
    (hRead : a.resolve root c = .ok v)
    (hItems : v.items? = some items)
    (hResolve : l.resolve items.length = some r) :
    l.ReadsAs root c a items r where
  slots := by
    have hSlots := resolve_slotAccesses hRead hItems hResolve
    have hRelated :
        List.Forall₂
          (fun source b => v.readSlot source = b.resolve root c)
          r.slots (l.slotAccesses a) := by
      have hEqual :
          List.Forall₂ Eq (r.slots.map v.readSlot)
            ((l.slotAccesses a).map (Access.resolve root c)) := by
        rw [hSlots]
        exact List.forall₂_refl _
      rw [List.forall₂_map_left_iff] at hEqual
      exact List.forall₂_map_right_iff.mp hEqual
    have hAssigned := (List.forall₂_and_left _ _).mpr
      ⟨fun source => exists_value_of_mem_resolve hResolve, hRelated⟩
    refine hAssigned.imp ?_
    rintro source b ⟨⟨w, hValue⟩, hSame⟩
    exact ⟨w, hValue, hSame.symm.trans (Value.readSlot_eq hItems hValue)⟩
  spread := by
    rw [resolve_spreadAccess? hRead hItems hResolve]
    exact Option.map_congr fun range _ =>
      Value.readSlice_eq hItems range

/-
  At every length, the length test holds exactly if the
  length can match, and then all accesses lead to what the
  resolution of the length assigns. From the saturated
  length on, that is what the one resolution for all of
  these lengths assigns.
-/
theorem accesses_readAs_resolve
    (hRead : a.resolve root c = .ok v)
    (hItems : v.items? = some items)
    (l : SeqLayout) :
    (∀ {σ : Type} (host : GuardHost σ) (bindings : AccessBindings)
        (s : σ),
      (l.lengthTest a).eval host root bindings (c, s) =
        (.ok (l.accepts items.length), (c, s))) ∧
    (l.accepts items.length = true →
      ∃ r, l.resolve items.length = some r ∧
        l.ReadsAs root c a items r ∧
        (l.saturatedLength ≤ items.length →
          l.resolveSaturated.slots.map (SlotSource.value? items) =
            r.slots.map (SlotSource.value? items) ∧
          l.resolveSaturated.spread = r.spread)) := by
  refine ⟨eval_lengthTest hRead hItems l, fun hAccepts => ?_⟩
  rw [← l.isSome_resolve, Option.isSome_iff_exists] at hAccepts
  rcases hAccepts with ⟨r, hResolve⟩
  exact ⟨r, hResolve, readsAs_of_resolve hRead hItems hResolve,
    resolveSaturated_assigns hResolve⟩

/-
  A slot with a default in front of a spread and one behind
  it, read from two elements below a field.
-/
theorem accesses_readAs_resolve_pair :
    let l : SeqLayout :=
      { defaults := [none, some (.bool true), some (.bool false)]
        spreadAt := some 2
        spread_le := by decide }
    let root : Value := .object [] [("x", .seq [.int 7, .int 8])]
    let a : Access := .field .scrutinee "x"
    a.resolve root Choices.empty = .ok (.seq [.int 7, .int 8]) ∧
    l.accepts 2 = true ∧ l.saturatedLength = 3 ∧
    ∃ r, l.resolve 2 = some r ∧
      l.ReadsAs root Choices.empty a [.int 7, .int 8] r := by
  intro l root a
  have hRead :
      a.resolve root Choices.empty = .ok (.seq [.int 7, .int 8]) :=
    rfl
  have hAccepts : l.accepts 2 = true := by decide
  refine ⟨hRead, hAccepts, by decide, ?_⟩
  rcases (accesses_readAs_resolve hRead rfl l).2 hAccepts with
    ⟨r, hResolve, hReads, -⟩
  exact ⟨r, hResolve, hReads⟩

end SeqLayout

end MatchCompiler
