import MatchCompiler.Procedure.Lower
import MatchCompiler.Proofs.Evaluation

/-
  This file describes which accesses a pattern reads.

  They go on from the access of the value that is matched: to
  a field, an element, a part or an entry, or to a constant
  where a default stands in. So a property of accesses that
  is kept by going on is one of all accesses of a pattern,
  and its tests ask questions about such accesses.

  Key definitions include:
    * `Access.Paths`
    * `Test.Reads`

  Key theorems include:
    * `Lowered.paths_seqAccesses`
    * `Test.reads_objectTests`
    * `Test.reads_lengthTest`
-/

------------------------------------------------------------
-- Accesses
------------------------------------------------------------

namespace MatchCompiler

/- A property of accesses that is kept by going on. -/
structure Access.Paths (P : Access → Prop) : Prop where
  field : ∀ {a}, P a → ∀ name, P (.field a name)
  index : ∀ {a}, P a → ∀ i, P (.index a i)
  slice : ∀ {a}, P a → ∀ range, P (.slice a range)
  payload : ∀ {a}, P a → P (.payload a)
  mapValue : ∀ {a}, P a → ∀ key, P (.mapValue a key)
  constant : ∀ l, P (.constant l)
  byLength :
    ∀ {a cases otherwise},
      P a → (∀ e ∈ cases, P (Prod.snd e)) → P otherwise →
      P (.byLength a cases otherwise)

variable {P : Access → Prop}
variable {a : Access}

namespace Access

/- A slot reads an element or a constant. -/
theorem Paths.slot
    (hP : Paths P)
    (ha : P a)
    (source : SlotSource) :
    P (a.slot source) := by
  cases source with
  | element i => exact hP.index ha i
  | default l => exact hP.constant l

/- An access may depend on the length. -/
theorem Paths.ofCases
    (hP : Paths P)
    (ha : P a)
    {cases : List (Nat × Access)}
    {otherwise : Access}
    (hCases : ∀ e ∈ cases, P e.2)
    (hOtherwise : P otherwise) :
    P (ofCases a cases otherwise) := by
  unfold Access.ofCases
  split
  · exact hOtherwise
  · exact hP.byLength ha hCases hOtherwise

end Access

namespace SeqLayout

/- The accesses of slots go on from that of the sequence. -/
theorem paths_slotAccesses
    (l : SeqLayout)
    (hP : Access.Paths P)
    (ha : P a) :
    ∀ b ∈ l.slotAccesses a, P b := by
  intro b hb
  rcases List.mem_map.mp hb with ⟨⟨source, k⟩, -, rfl⟩
  refine hP.ofCases ha ?_ (hP.slot ha source)
  intro e he
  rcases List.mem_filterMap.mp he with ⟨⟨n, r⟩, -, hEq⟩
  rcases Option.bind_eq_some_iff.mp hEq with ⟨s, -, hEq⟩
  dsimp only at hEq
  split at hEq
  · cases hEq
  · cases hEq
    exact hP.slot ha s

/- So does the access of the spread. -/
theorem paths_spreadAccess?
    (l : SeqLayout)
    (hP : Access.Paths P)
    (ha : P a) :
    ∀ b ∈ l.spreadAccess? a, P b := by
  intro b hb
  rcases Option.bind_eq_some_iff.mp hb with ⟨range, -, hEq⟩
  cases hEq
  refine hP.ofCases ha ?_ (hP.slice ha range)
  intro e he
  rcases List.mem_filterMap.mp he with ⟨⟨n, r⟩, -, hEq⟩
  rcases Option.bind_eq_some_iff.mp hEq with ⟨here, -, hEq⟩
  split at hEq
  · cases hEq
  · cases hEq
    exact hP.slice ha here

end SeqLayout

namespace Lowered

/- The accesses of a sequence pattern go on from its own. -/
theorem paths_seqAccesses
    (hP : Access.Paths P)
    (ha : P a)
    {l : SeqLayout}
    {fixed : Option Nat}
    {length : Option Test}
    {slots : List Access}
    {slice : Option Access}
    (h : seqAccesses l a fixed = some (length, slots, slice)) :
    (∀ b ∈ slots, P b) ∧ ∀ b ∈ slice, P b := by
  cases fixed with
  | none =>
      cases h
      exact ⟨l.paths_slotAccesses hP ha, l.paths_spreadAccess? hP ha⟩
  | some n =>
      rcases Option.map_eq_some_iff.mp h with ⟨r, -, hEq⟩
      cases hEq
      refine ⟨?_, fun b hb => ?_⟩
      · exact List.forall_mem_map.mpr fun source _ => hP.slot ha source
      · rcases Option.map_eq_some_iff.mp hb with ⟨range, -, rfl⟩
        exact hP.slice ha range

end Lowered

end MatchCompiler

------------------------------------------------------------
-- Tests
------------------------------------------------------------

namespace MatchCompiler

namespace Test

/- The test asks a question about one of some accesses. -/
def Reads
    (P : Access → Prop)
    (t : Test) : Prop :=
  ∃ a q, t.query = some (a, q) ∧ P a

variable {P : Access → Prop}

/- What asks a question is not built from other tests. -/
theorem isLeaf_of_query
    {t : Test}
    {a : Access}
    {q : Value → Except ShapeMismatch Bool}
    (h : t.query = some (a, q)) :
    t.IsLeaf := by
  cases t <;> trivial

theorem Reads.isLeaf
    {t : Test}
    (h : t.Reads P) :
    t.IsLeaf := by
  rcases h with ⟨a, q, hQuery, -⟩
  exact isLeaf_of_query hQuery

/- The access of a test that reads one. -/
theorem Reads.of_query
    {t : Test}
    (h : t.Reads P)
    {a : Access}
    {q : Value → Except ShapeMismatch Bool}
    (hQuery : t.query = some (a, q)) :
    P a := by
  rcases h with ⟨b, q', hOwn, hb⟩
  cases hOwn.symm.trans hQuery
  exact hb

variable {a : Access}

/- A literal is a test of its access. -/
theorem reads_literal
    (ha : P a)
    (l : CheckedLiteral) :
    (Lowered.literal a l).test.Reads P := by
  cases l <;> exact ⟨a, _, rfl, ha⟩

/- So is a set pattern. -/
theorem reads_set
    (ha : P a)
    (o : LoweringOptions)
    (p : SetPattern) :
    (Lowered.set o a p).Reads P := by
  unfold Lowered.set
  dsimp only
  split
  · split
    · exact ⟨a, _, rfl, ha⟩
    · exact ⟨a, _, rfl, ha⟩
  · exact ⟨a, _, rfl, ha⟩

/- The tests of an object read it or its discriminator. -/
theorem reads_objectTests
    (hP : Access.Paths P)
    (ha : P a)
    (h : ObjectHead) :
    ∀ t ∈ Lowered.objectTests a h, t.Reads P := by
  intro t ht
  rcases List.mem_append.mp ht with ht | hPin
  · rcases List.mem_append.mp ht with hType | hNil
    · rcases Option.mem_toList.mp hType with hType
      rcases Option.map_eq_some_iff.mp hType with ⟨name, -, rfl⟩
      exact ⟨a, _, rfl, ha⟩
    · split at hNil
      · cases List.mem_singleton.mp hNil
        exact ⟨a, _, rfl, ha⟩
      · cases hNil
  · rcases Option.mem_toList.mp hPin with hPin
    rcases Option.map_eq_some_iff.mp hPin with ⟨pin, -, rfl⟩
    unfold Lowered.pin
    split
    · exact ⟨_, _, rfl, hP.field ha _⟩
    · exact ⟨_, _, rfl, hP.field ha _⟩

end Test

/- A length test asks a question about the sequence. -/
theorem SeqLayout.exists_query_of_lengthTest?
    {l : SeqLayout}
    {a : Access}
    {t : Test}
    (h : l.lengthTest? a = some t) :
    ∃ q, t.query = some (a, q) ∧ ∀ u, t.joins u = false := by
  unfold lengthTest? at h
  dsimp only at h
  split at h
  · split at h
    · cases h
    · cases h
      exact ⟨_, rfl, fun _ => rfl⟩
  · split at h
    · cases h
      exact ⟨_, rfl, fun _ => rfl⟩
    · cases h
      exact ⟨_, rfl, fun _ => rfl⟩

/- The length test of a sequence pattern reads the sequence. -/
theorem Test.reads_lengthTest
    {P : Access → Prop}
    {a : Access}
    (ha : P a)
    {l : SeqLayout}
    {fixed : Option Nat}
    {length : Option Test}
    {slots : List Access}
    {slice : Option Access}
    (h :
      Lowered.seqAccesses l a fixed = some (length, slots, slice)) :
    ∀ t ∈ length.toList, t.Reads P := by
  intro t ht
  rw [Option.mem_toList] at ht
  cases fixed with
  | none =>
      cases h
      rcases SeqLayout.exists_query_of_lengthTest? ht with
        ⟨q, hQuery, -⟩
      exact ⟨a, q, hQuery, ha⟩
  | some n =>
      rcases Option.map_eq_some_iff.mp h with ⟨r, -, hEq⟩
      cases hEq
      cases ht

end MatchCompiler
