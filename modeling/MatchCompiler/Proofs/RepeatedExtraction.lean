import MatchCompiler.Proofs.Closedness

/-
  This file shows that a descriptor is extracted only once.

  Whatever a registry has been used for, with any tables, an
  extraction that ends keeps all of its slots. A descriptor
  of the table is then remembered for good: later it is found
  in the same slot, in any table that still has it, and this
  changes neither the pool nor the number of misses. Editing
  a table takes no descriptor out of it.

  Key definitions include:
    * `TypeTable.Edit`
    * `TypeTable.Edited`

  Key theorems include:
    * `TypeTable.Edited.size_le`
    * `Registry.extracted_once`
-/

------------------------------------------------------------
-- Edits
------------------------------------------------------------

namespace MatchCompiler

namespace TypeTable

variable {t t' : TypeTable}

/-
  A table is edited: a type is described or announced, or its
  shape is replaced.
-/
inductive Edit (t : TypeTable) : TypeTable → Prop
| define
    (d : TypeDescriptor) :
    Edit t (t.define d).1
| declare
    (name : String) :
    Edit t (t.declare name).1
| setShape
    (id : DescriptorId)
    (shape : Shape) :
    Edit t (t.setShape id shape)

/- A table after any number of edits. -/
def Edited : TypeTable → TypeTable → Prop :=
  Relation.ReflTransGen Edit

/- No edit takes a descriptor out of the table. -/
theorem Edit.size_le
    (h : t.Edit t') :
    t.size ≤ t'.size := by
  cases h with
  | define d => simp [TypeTable.define, size]
  | declare name => simp [TypeTable.declare, TypeTable.define, size]
  | setShape id shape => simp [TypeTable.setShape, size]

theorem Edited.size_le
    (h : t.Edited t') :
    t.size ≤ t'.size := by
  induction h with
  | refl => exact Nat.le_refl _
  | tail _ hEdit ih => exact ih.trans hEdit.size_le

end TypeTable

end MatchCompiler

------------------------------------------------------------
-- Extracting Again
------------------------------------------------------------

namespace MatchCompiler

namespace Registry

/-
  An extraction that ends leaves every slot as it was. If the
  descriptor is in the table, extracting it again at any
  later time, from any table that has it, ends with the same
  slot, however deep it may go, and changes neither the pool
  nor the number of misses.
-/
theorem extracted_once
    {marker : Char}
    {r r' : Registry}
    (hLater : Later { marker } r)
    {t : TypeTable}
    {id : DescriptorId}
    {slot : SchemaId}
    (hExtracts : r.Extracts t id r' slot) :
    (r.pool.size ≤ r'.pool.size ∧
      ∀ s < r.pool.size, r'.pool.get? s = r.pool.get? s) ∧
    (id < t.size →
      ∀ r₁ t', r'.Later r₁ → id < t'.size →
        ∃ r₂, r₁.Extracts t' id r₂ slot ∧
          (∀ depth, r₁.schemaWithin t' depth id = (r₂, slot)) ∧
          r₂.pool = r₁.pool ∧ r₂.misses = r₁.misses) := by
  have hSettled := (hLater.settled (settled_fresh marker)).1
  have hBounded := hSettled.closed.bounded
  have hPool := (hExtracts.grows hBounded).pool
  refine ⟨⟨hPool.size_le, fun s hs => hPool.get?_eq hs⟩, ?_⟩
  intro hPresent r₁ t' hLater' hStill
  have hGrows := (hLater'.settled (hExtracts.settled hSettled).1).2
  have hRemembers :=
    (hExtracts.remembers hBounded
      (TypeTable.isSome_get?_iff.mpr hPresent)).mono hGrows
  have hFound := TypeTable.isSome_get?_iff.mpr hStill
  exact ⟨_, ⟨1, extract?_of_remembered hRemembers hFound 0⟩,
    schemaWithin_of_remembered hRemembers hFound, rfl, rfl⟩

/- A table of one type, of numbers. -/
def countTable : TypeTable :=
  { descriptors := #[{ name := "Count", shape := .primitive .u32 }] }

/- A list node with a reference to the next one. -/
def linkedNodes : TypeTable :=
  { descriptors :=
      #[{ name := "Node",
          shape := .object { fields := [⟨"next", .described 1, false⟩] } },
        { name := "NodeRef", shape := .reference (.described 0) }] }

/-
  A registry filled from one table is asked for a reference
  in another. The reference is found again in its slot after
  a sequence has been shared and its description replaced.
-/
theorem linkedNodes_extracted_once :
    ∃ r r' r₁ r₂, Later {} r ∧ r.pool.size = 1 ∧
      r.Extracts linkedNodes 1 r' 1 ∧ r'.pool.size = 2 ∧
      r'.Later r₁ ∧ r₁.pool.size = 3 ∧
      r₁.Extracts (linkedNodes.setShape 1 .unknown) 1 r₂ 1 ∧
      r₂.pool = r₁.pool ∧ r₂.misses = r₁.misses := by
  have hFirst :
      (extract? {} countTable 2 0).map (fun e => (e.1.pool.size, e.2)) =
        some (1, 0) := by
    rfl
  have hSecond :
      ((extract? {} countTable 2 0).bind fun e =>
          e.1.extract? linkedNodes 4 1).map
        (fun e => (e.1.pool.size, (e.1.pool.sequenceOf 0).1.size, e.2)) =
        some (2, 3, 1) := by
    rfl
  rcases Option.map_eq_some_iff.mp hFirst with ⟨⟨r, count⟩, hr, hEq⟩
  rcases Prod.mk.inj hEq with ⟨hSize, rfl⟩
  rw [hr, Option.bind_some] at hSecond
  rcases Option.map_eq_some_iff.mp hSecond with ⟨⟨r', slot⟩, hr', hEq'⟩
  simp only [Prod.mk.injEq] at hEq'
  rcases hEq' with ⟨hSize', hShared, rfl⟩
  have hLater : Later {} r := .single ⟨0, .extract ⟨2, hr⟩⟩
  have hExtracts : r.Extracts linkedNodes 1 r' 1 := ⟨4, hr'⟩
  have hCount : 0 < r'.pool.size := by omega
  have hUse := Use.sequenceOf hCount
  have hEdited : linkedNodes.Edited (linkedNodes.setShape 1 .unknown) :=
    .single (.setShape 1 .unknown)
  have hPresent : 1 < linkedNodes.size := by decide
  rcases (extracted_once hLater hExtracts).2 hPresent _ _
      (.single ⟨_, hUse⟩) (hPresent.trans_le hEdited.size_le) with
    ⟨r₂, hAgain, -, hPool, hMisses⟩
  exact ⟨r, r', _, r₂, hLater, hSize, hExtracts, hSize',
    .single ⟨_, hUse⟩, hShared, hAgain, hPool, hMisses⟩

end Registry

end MatchCompiler
