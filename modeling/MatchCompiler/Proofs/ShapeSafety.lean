import MatchCompiler.Proofs.PartReading
import Mathlib.Tactic.IntervalCases

/-
  This file shows that matches fit the values of their type.

  Every access of an accepted pattern leads to a part that a
  value of the scrutinee's type has whenever the access is
  used: the tests before it make sure of the branch, of the
  presence, of the key or of the length that it needs. So a
  typed value does not make the compiled match fault.

  Key definitions include:
    * `Pattern.HasDefault`
    * `Schema.IsLoose`
    * `TypeTable.FitForMatching`
    * `Pattern.ReadSafely`

  Key theorems include:
    * `Pattern.readSafely`
    * `execute_fits_typed_value`
    * `sharedOrdinal_faults`
-/

------------------------------------------------------------
-- Defaults
------------------------------------------------------------

namespace MatchCompiler

/- A literal is the default of a slot in a pattern. -/
inductive Pattern.HasDefault
    (l : Literal) : Pattern → Prop
| slot
    {span : Span}
    {es : List (SeqElement Pattern)}
    {p : Pattern}
    (hSlot : .item p (some l) ∈ es) :
    HasDefault l (.seq span es)
| element
    {span : Span}
    {es : List (SeqElement Pattern)}
    {e : SeqElement Pattern}
    {p : Pattern}
    (hElement : e ∈ es)
    (hPattern : e.pattern? = some p)
    (h : HasDefault l p) :
    HasDefault l (.seq span es)
| alt
    {span : Span}
    {ps : List Pattern}
    {p : Pattern}
    (hBranch : p ∈ ps)
    (h : HasDefault l p) :
    HasDefault l (.alt span ps)
| guarded
    {span : Span}
    {p : Pattern}
    {g : Guard}
    (h : HasDefault l p) :
    HasDefault l (.guarded span p g)
| named
    {span : Span}
    {x : String}
    {p : Pattern}
    (h : HasDefault l p) :
    HasDefault l (.named span x p)
| field
    {span : Span}
    {head : ConstructorHead}
    {fields : List (FieldName × Pattern)}
    {args : List Pattern}
    {f : FieldName × Pattern}
    (hField : f ∈ fields)
    (h : HasDefault l f.2) :
    HasDefault l (.constructor span head fields args)
| arg
    {span : Span}
    {head : ConstructorHead}
    {fields : List (FieldName × Pattern)}
    {args : List Pattern}
    {p : Pattern}
    (hArg : p ∈ args)
    (h : HasDefault l p) :
    HasDefault l (.constructor span head fields args)
| entry
    {span : Span}
    {es : List (Literal × Pattern)}
    {e : Literal × Pattern}
    (hEntry : e ∈ es)
    (h : HasDefault l e.2) :
    HasDefault l (.map span es)

/- A literal that is neither a symbol nor nil. -/
def Literal.isPlain : Literal → Bool
| .nil | .sym _ => false
| _ => true

/- No default of a slot is a symbol or nil. -/
def Pattern.PlainDefaults (p : Pattern) : Prop :=
  ∀ l, p.HasDefault l → l.isPlain = true

/-
  Values of a schema are only ever compared as a whole, so
  that even a value of another type does no harm.
-/
def Schema.IsLoose (s : Schema) : Prop :=
  s.structuralKind = .primitive ∨ s.structuralKind = .unknown

/- A plain default is accepted at loose schemas only. -/
theorem SchemaPool.isLoose_of_checkLiteral
    {p : SchemaPool}
    {marker : Char}
    {slot : SchemaId}
    {l : Literal}
    {meaning : CheckedLiteral}
    (hPlain : l.isPlain = true)
    (h : p.checkLiteral marker slot l = .ok meaning) :
    (p.get slot).IsLoose := by
  unfold checkLiteral Schema.checkLiteral at h
  dsimp only at h
  rw [if_neg (by cases l <;> simp_all [Literal.isPlain])] at h
  split at h
  · cases hPlain
  · cases hPlain
  · rename_i hKind _
    exact .inr hKind
  · cases h
  · rename_i hKind
    exact .inl hKind
  · cases hPlain
  · cases h

end MatchCompiler

------------------------------------------------------------
-- Accesses
------------------------------------------------------------

namespace MatchCompiler

namespace Access.Reads

variable {root : Value}
variable {a : Access}

theorem payload
    {v : Value}
    (h : a.Reads root (.some v)) :
    (Access.payload a).Reads root v := by
  intro c
  simp only [Access.resolve, h c]
  rfl

theorem item
    {v w : Value}
    {items : List Value}
    (h : a.Reads root v)
    (hItems : v.items? = some items)
    {i : Nat}
    (hItem : items[i]? = some w) :
    (Access.index a (.fromStart i)).Reads root w := by
  intro c
  simp only [Access.resolve, h c]
  change v.readItem (.fromStart i) = .ok w
  rw [Value.readItem_eq hItems]
  simp only [Value.itemAt?, hItem]

theorem mapValue
    {entries : List (Value × Value)}
    {key : Literal}
    {w : Value}
    (h : a.Reads root (.map entries))
    (hKey : Value.entry? entries key = some w) :
    (Access.mapValue a key).Reads root w := by
  intro c
  simp only [Access.resolve, h c]
  change Value.readKey key (.map entries) = .ok w
  simp only [Value.readKey, hKey]

/- A test that asks about what is read gets one answer. -/
theorem answer
    {v : Value}
    (h : a.Reads root v)
    {t : Test}
    {question : Value → Except ShapeMismatch Bool}
    (hQuery : t.query = some (a, question))
    {b : Bool}
    (hAnswer : question v = .ok b)
    (c : Choices) :
    t.reading root c = .ok b :=
  (Test.reading_of_query hQuery (h c)).trans hAnswer

end Access.Reads

end MatchCompiler

------------------------------------------------------------
-- Literals And Sets
------------------------------------------------------------

namespace MatchCompiler

/-
  A value that a pattern may meet at a slot: one of its type,
  or any value if the schema is loose, as the default of a
  slot is.
-/
def SchemaPool.MayMeet
    (t : TypeTable)
    (p : SchemaPool)
    (slot : SchemaId)
    (T : ValueType)
    (v : Value) : Prop :=
  HasType t T v ∨ (p.get slot).IsLoose

variable {t : TypeTable}
variable {Γ : SlotTypes}
variable {p : SchemaPool}
variable {slot : SchemaId}
variable {T : ValueType}
variable {v : Value}

/- What is met at a schema of a certain kind is of that kind. -/
theorem SchemaPool.MayMeet.admits
    (h : p.MayMeet t slot T v)
    (hDescribes : Describes t Γ T (p.get slot))
    {kind : SchemaKind}
    (hKind : (p.get slot).structuralKind = kind)
    (hTight : kind ∉ [.primitive, .unknown]) :
    HasType t T v ∧ (p.get slot).Admits t Γ v := by
  rcases h with hValue | hLoose
  · exact ⟨hValue, hDescribes.values v hValue⟩
  · unfold Schema.IsLoose at hLoose
    rw [hKind] at hLoose
    rcases hLoose with rfl | rfl <;> simp at hTight

/- What is met at a sequence is one of typed values. -/
theorem SchemaPool.MayMeet.exists_items
    (h : p.MayMeet t slot T v)
    (hDescribes : Describes t Γ T (p.get slot))
    (hKind :
      (p.get slot).structuralKind = .sequence ∨
        (p.get slot).structuralKind = .array)
    {element : SchemaId}
    (hElement : (p.get slot).element = some element)
    {U : ValueType}
    (hU : Γ[element]? = some U) :
    ∃ values, v = .seq values ∧
      (∀ n ∈ (p.get slot).fixedLength?, values.length = n) ∧
      ∀ w ∈ values, HasType t U w := by
  have hValues :
      ∃ values, v = .seq values ∧
        (∀ n ∈ (p.get slot).arrayLength, values.length = n) ∧
        ∀ slot' ∈ (p.get slot).element, ∀ w ∈ values,
          Γ.Types t slot' w := by
    rcases hKind with hKind | hKind
    · have hAdmits := (h.admits hDescribes hKind (by decide)).2
      unfold Schema.Admits at hAdmits
      rw [Schema.kind_of_structuralKind hKind (by decide)] at hAdmits
      exact hAdmits
    · have hAdmits := (h.admits hDescribes hKind (by decide)).2
      unfold Schema.Admits at hAdmits
      rw [Schema.kind_of_structuralKind hKind (by decide)] at hAdmits
      exact hAdmits
  rcases hValues with ⟨values, rfl, hLength, hTypes⟩
  refine ⟨values, rfl, fun n hn => ?_, fun w hw => ?_⟩
  · unfold Schema.fixedLength? at hn
    split at hn
    · exact hLength n hn
    · cases hn
  · rcases hTypes element hElement w hw with ⟨U', hU', hType⟩
    cases hU.symm.trans hU'
    exact hType

/- A value can be compared with every literal of its type. -/
theorem SchemaPool.MayMeet.exists_holds
    (h : p.MayMeet t slot T v)
    (hDescribes : Describes t Γ T (p.get slot))
    {marker : Char}
    {l : Literal}
    {meaning : CheckedLiteral}
    (hMeaning : p.checkLiteral marker slot l = .ok meaning) :
    ∃ b, meaning.holds v = .ok b := by
  rcases cases_of_checkLiteral hMeaning with
    ⟨rfl, -⟩ | ⟨rfl, hKind⟩ | ⟨rfl, -⟩ | ⟨⟨l', rfl⟩, -⟩ | ⟨⟨m, -, rfl⟩, hKind⟩
  · exact ⟨_, rfl⟩
  · rcases h.admits hDescribes hKind (by decide) with ⟨-, hAdmits⟩
    unfold Schema.Admits at hAdmits
    rw [Schema.kind_of_structuralKind hKind (by decide)] at hAdmits
    rcases hAdmits with rfl | ⟨w, rfl, -⟩ <;> exact ⟨_, rfl⟩
  · exact ⟨_, rfl⟩
  · exact ⟨_, rfl⟩
  · rcases h.admits hDescribes hKind (by decide) with ⟨-, hAdmits⟩
    unfold Schema.Admits at hAdmits
    rw [Schema.kind_of_structuralKind hKind (by decide)] at hAdmits
    rcases hAdmits with ⟨k, -, rfl⟩
    exact ⟨_, rfl⟩

/- The values of a numbered type have numbers in its domain. -/
theorem SchemaPool.exists_numberBelow
    (hDescribes : Describes t Γ T (p.get slot))
    (hValue : HasType t T v)
    {domain : Nat}
    (hDomain : p.ordinalDomain slot = some domain) :
    ∃ n, v.numberBelow domain = .ok n := by
  have hAdmits := hDescribes.values v hValue
  unfold Schema.Admits at hAdmits
  unfold ordinalDomain Schema.ordinalDomain at hDomain
  split at hDomain
  · rename_i hKind
    rw [Schema.kind_of_structuralKind hKind (by decide)] at hAdmits
    rcases hAdmits with ⟨m, hm, rfl⟩
    rcases (le_and_lt_of_foldlM hDomain).2 m hm with ⟨hLow, hHigh⟩
    refine ⟨m.ordinal.toNat, ?_⟩
    simp only [Value.numberBelow, Value.ordinal?]
    rw [if_pos]
    simp only [Bool.and_eq_true, decide_eq_true_eq]
    omega
  · rename_i hKind
    rw [Schema.kind_of_structuralKind hKind (by decide)] at hAdmits
    split at hDomain
    · rename_i hBool
      cases hDomain
      have hHolds := hAdmits .bool (beq_iff_eq.mp hBool)
      cases v with
      | bool b => cases b <;> exact ⟨_, rfl⟩
      | tuple items => cases items <;> cases hHolds
      | _ => cases hHolds
    · cases hDomain
  · cases hDomain

/- A set pattern can be compared with the sets of its type. -/
theorem Lowered.exists_reading_set
    {element : SchemaId}
    {U : ValueType}
    (hDescribes : Describes t Γ U (p.get element))
    {items : List Value}
    (hItems : ∀ w ∈ items, HasType t U w)
    {root : Value}
    {a : Access}
    {c : Choices}
    (hRead : a.resolve root c = .ok (.set items))
    (o : LoweringOptions)
    (members : List SetMember)
    (exact : Bool) :
    ∃ b,
      (set o a
        { members, exact, domain := p.ordinalDomain element }).reading root
          c = .ok b := by
  have hContains :
      ∀ ls, ∃ b, (Test.setContains a ls exact).reading root c = .ok b := by
    intro ls
    rw [Test.reading_of_query rfl hRead]
    exact ⟨_, rfl⟩
  unfold set
  dsimp only
  split
  · rename_i domain ordinals hDomain _
    split
    · rename_i hSmall
      have hEach :
          ∀ w ∈ items, ∃ n, w.numberBelow domain = .ok n := fun w hw =>
        SchemaPool.exists_numberBelow hDescribes (hItems w hw) hDomain
      rcases exists_mapM_eq_pure hEach with ⟨numbers, hNumbers, -⟩
      have hWidth : domain ≤ LoweringOptions.maskWidth :=
        hSmall.trans (Nat.min_le_right _ _)
      rcases Value.exists_maskOf hWidth hNumbers with ⟨bits, hBits, -⟩
      rw [Test.reading_of_query rfl hRead]
      change ∃ b, (Value.maskOf items >>= fun bits => pure _) = .ok b
      rw [hBits]
      exact ⟨_, rfl⟩
    · exact hContains _
  · exact hContains _

end MatchCompiler

------------------------------------------------------------
-- Plans Of Parts
------------------------------------------------------------

namespace MatchCompiler

namespace Checked

variable {o : LoweringOptions}
variable {root : Value}
variable {inside : Bool}
variable {a : Access}

theorem faultFree_branches
    {qs : List Checked}
    (h : ∀ q ∈ qs, (q.plan o true a).FaultFree root) :
    (Plan.alt (planBranches o qs a)).FaultFree root := by
  refine Plan.faultFree_alt fun p hp => ?_
  rw [planBranches_eq] at hp
  rcases List.mem_map.mp hp with ⟨q, hq, rfl⟩
  exact h q hq

theorem faultFree_fields
    {fs : List (FieldRead × Checked)}
    (h :
      ∀ f ∈ fs, (f.2.plan o inside (.field a f.1.name)).FaultFree root) :
    Plan.FaultFreeInTurn root (planFields o inside fs a) := by
  refine Plan.faultFreeInTurn_of_forall fun p hp => ?_
  rcases mem_planFields.mp hp with ⟨f, hf, rfl⟩
  exact h f hf

theorem planFields_append
    (fs gs : List (FieldRead × Checked)) :
    planFields o inside (fs ++ gs) a =
      planFields o inside fs a ++ planFields o inside gs a := by
  induction fs with
  | nil => rfl
  | cons f fs ih => exact congrArg _ ih

theorem faultFree_tuple
    {items : List (Nat × Checked)}
    (h :
      ∀ i ∈ items,
        (i.2.plan o inside (.index a (.fromStart i.1))).FaultFree root) :
    Plan.FaultFreeInTurn root (planTuple o inside items a) := by
  induction items with
  | nil => exact Plan.faultFreeInTurn_nil
  | cons i items ih =>
      rcases List.forall_mem_cons.mp h with ⟨hHead, hTail⟩
      exact hHead.cons fun _ => ih hTail

theorem faultFree_slots
    {qs : List Checked}
    {slots : List Access}
    (h :
      ∀ e ∈ qs.zip slots, (e.1.plan o inside e.2).FaultFree root) :
    Plan.FaultFreeInTurn root (planSlots o inside qs slots) := by
  induction qs generalizing slots with
  | nil => exact Plan.faultFreeInTurn_nil
  | cons q qs ih =>
      cases slots with
      | nil => exact Plan.faultFreeInTurn_nil
      | cons slot slots =>
          rcases List.forall_mem_cons.mp h with ⟨hHead, hTail⟩
          exact Plan.FaultFree.cons hHead fun _ => ih hTail

theorem faultFree_spread
    {spread : Option Checked}
    {slice : Option Access}
    (h :
      ∀ q ∈ spread, ∀ b ∈ slice, (q.plan o inside b).FaultFree root) :
    Plan.FaultFreeInTurn root (planSpread o inside spread slice) := by
  cases spread with
  | none => exact Plan.faultFreeInTurn_nil
  | some q =>
      cases slice with
      | none => exact Plan.faultFreeInTurn_nil
      | some b =>
          exact Plan.FaultFree.cons (h q rfl b rfl)
            fun _ => Plan.faultFreeInTurn_nil

/- The value of a key is read only if the key is there. -/
theorem faultFree_entries
    {entries : List (Value × Value)}
    (hRead : a.Reads root (.map entries))
    {es : List (Literal × Checked)}
    (h :
      ∀ e ∈ es, ∀ w, Value.entry? entries e.1 = Option.some w →
        (e.2.plan o inside (.mapValue a e.1)).FaultFree root) :
    Plan.FaultFreeInTurn root (planEntries o inside es a) := by
  induction es with
  | nil => exact Plan.faultFreeInTurn_nil
  | cons e es ih =>
      rcases List.forall_mem_cons.mp h with ⟨hHead, hTail⟩
      have hKey :
          ∀ c, (Test.hasKey a e.1).reading root c =
            .ok (entries.any fun entry => entry.1.equals e.1) :=
        hRead.answer rfl rfl
      refine Plan.FaultFree.cons
        (Plan.faultFree_leaf trivial (hKey .empty)) fun hMight => ?_
      have hThere := Test.eq_of_might (t := .hasKey a e.1) trivial hKey
        (Plan.might_test_iff.mp hMight)
      have hEntry :
          ∃ w, Value.entry? entries e.1 = Option.some w := by
        unfold Value.entry?
        rw [← Option.isSome_iff_exists, Option.isSome_map,
          List.find?_isSome]
        exact List.any_eq_true.mp hThere.symm
      rcases hEntry with ⟨w, hw⟩
      exact Plan.FaultFree.cons (hHead w hw) fun _ => ih hTail

/- The slots of a sequence whose length fits can be read. -/
theorem exists_readSlot
    {l : SeqLayout}
    {v : Value}
    {values : List Value}
    (hItems : v.items? = Option.some values)
    {r : Resolution}
    (hResolve : l.resolve values.length = Option.some r)
    {source : SlotSource}
    (hSource : source ∈ r.slots) :
    ∃ w, v.readSlot source = .ok w ∧
      (w ∈ values ∨
        ∃ value, Option.some value ∈ l.defaults ∧ w = .ofLiteral value) := by
  cases source with
  | «default» value =>
      exact ⟨_, rfl, .inr
        ⟨value, SeqLayout.mem_of_mem_resolve hResolve hSource, rfl⟩⟩
  | element i =>
      rcases SeqLayout.lt_of_mem_resolve hResolve hSource with ⟨k, hk, rfl⟩
      refine ⟨values[k], ?_, .inl (List.getElem_mem hk)⟩
      simp only [Value.readSlot, Value.readItem_eq hItems, Value.itemAt?,
        List.getElem?_eq_getElem hk]

/-
  A sequence pattern reads slots and spread only if the
  length fits.
-/
theorem faultFree_seq
    {l : SeqLayout}
    {v : Value}
    {values : List Value}
    (hRead : a.Reads root v)
    (hItems : v.items? = Option.some values)
    {fixed : Option Nat}
    (hFixed : ∀ n ∈ fixed, values.length = n)
    {qs : List Checked}
    {spread : Option Checked}
    (hSlots :
      ∀ q ∈ qs, ∀ b w, b.Reads root w →
        (w ∈ values ∨
          ∃ value, Option.some value ∈ l.defaults ∧
            w = .ofLiteral value) →
        (q.plan o inside b).FaultFree root)
    (hSpread :
      ∀ q ∈ spread, ∀ b range w, v.readSlice range = .ok w →
        b.Reads root w → (q.plan o inside b).FaultFree root)
    (span : Span) :
    ((Checked.seq span l fixed qs spread).plan o inside a).FaultFree
      root := by
  simp only [plan]
  cases hAccesses : Lowered.seqAccesses l a fixed with
  | none => exact Plan.faultFree_leaf (t := .never) trivial rfl
  | some accesses =>
      rcases accesses with ⟨length, slots, slice⟩
      have hLeaf := Lowered.isLeaf_of_seqAccesses hAccesses
      refine Plan.faultFree_all ?_
      cases hResolve : l.resolve values.length with
      | none =>
          -- The length test fails, so that nothing is read after it.
          have hRefused := fun c => Lowered.refused_of_seqAccesses (hRead c)
            hItems hResolve hFixed hAccesses
          rcases hRefused .empty with ⟨t, rfl, hFalse⟩
          refine Plan.FaultFree.cons
            (Plan.faultFree_leaf (hLeaf t rfl) hFalse) fun hMight => ?_
          have hFalse : ∀ c, t.reading root c = .ok false := by
            intro c
            rcases hRefused c with ⟨t', hSame, hFalse⟩
            cases hSame
            exact hFalse
          cases Test.eq_of_might (hLeaf t rfl) hFalse
            (Plan.might_test_iff.mp hMight)
      | some r =>
          have hReads := fun c => Lowered.reads_of_seqAccesses (hRead c)
            hItems hResolve hFixed hAccesses
          refine Plan.FaultFreeInTurn.append ?_ fun _ =>
            Plan.FaultFreeInTurn.append (faultFree_slots ?_) fun _ =>
              faultFree_spread ?_
          · refine Plan.faultFreeInTurn_of_forall fun p hp => ?_
            rcases List.mem_map.mp hp with ⟨t, ht, rfl⟩
            have hLength := Option.mem_toList.mp ht
            exact Plan.faultFree_leaf (hLeaf t hLength)
              ((hReads .empty).1 t hLength)
          · intro e he
            rcases List.mem_iff_getElem?.mp he with ⟨i, hi⟩
            rcases List.getElem?_zip_eq_some.mp hi with ⟨hq, hb⟩
            have hSource : ∀ c, (r.slots[i]?).map v.readSlot =
                Option.some (e.2.resolve root c) := by
              intro c
              rw [← List.getElem?_map, ← (hReads c).2.1, List.getElem?_map,
                hb]
              rfl
            rcases Option.map_eq_some_iff.mp (hSource .empty) with
              ⟨source, hSlot, -⟩
            rcases exists_readSlot hItems hResolve
                (List.mem_of_getElem? hSlot) with ⟨w, hw, hFrom⟩
            refine hSlots e.1 (List.mem_of_getElem? hq) e.2 w
              (fun c => ?_) hFrom
            have hSame := hSource c
            rw [hSlot] at hSame
            exact (Option.some.inj hSame).symm.trans hw
          · intro q hq b hb
            cases hb
            have hSlice := fun c => (hReads c).2.2
            rcases Option.map_eq_some_iff.mp (hSlice .empty).symm with
              ⟨range, hRange, -⟩
            have hSlice : ∀ c, b.resolve root c = v.readSlice range := by
              intro c
              have hSame := hSlice c
              rw [hRange] at hSame
              exact Option.some.inj hSame
            have hOk : ∃ w, v.readSlice range = .ok w := by
              simp only [Value.readSlice, Value.readItems, hItems]
              exact ⟨_, rfl⟩
            rcases hOk with ⟨w, hw⟩
            exact hSpread q hq b range w hw fun c => (hSlice c).trans hw

end Checked

end MatchCompiler

------------------------------------------------------------
-- Patterns
------------------------------------------------------------

namespace MatchCompiler

open Registry (GrowsTyped)

/-
  A table without templates whose types have names of their
  own, whose references lead to objects, and whose variant
  parts tell their branches apart by number.
-/
structure TypeTable.FitForMatching (t : TypeTable) : Prop where
  free : t.TemplateFree
  names : t.DistinctNames
  refers : t.RefersToObjects
  varies : t.VariesWell

/-
  Wherever a pattern is accepted, matching it does not fault
  on the values that it may meet there.
-/
def Pattern.ReadSafely
    (ctx : CheckContext)
    (o : LoweringOptions)
    (root : Value)
    (p : Pattern) : Prop :=
  ∀ ⦃Γ s s' slot T q⦄, Accepts ctx p slot s q s' →
    s.registry.Typed ctx.table Γ → Γ[slot]? = some T →
    ∀ ⦃a v⦄, s.pool.MayMeet ctx.table slot T v → a.Reads root v →
      ∀ inside, (q.plan o inside a).FaultFree root

section

variable {ctx : CheckContext}
variable {o : LoweringOptions}
variable {root : Value}

/- The same after the registry has grown. -/
theorem Pattern.ReadSafely.acceptedAt
    {p : Pattern}
    (h : p.ReadSafely ctx o root)
    {Γ : SlotTypes}
    {r : Registry}
    {slot : SchemaId}
    {q : Checked}
    (hAccepted : AcceptedAt ctx Γ r p slot q)
    (hTyped : r.Typed ctx.table Γ)
    {T : ValueType}
    (hSlot : Γ[slot]? = some T)
    {a : Access}
    {v : Value}
    (hMeets : r.pool.MayMeet ctx.table slot T v)
    (hRead : a.Reads root v)
    (inside : Bool) :
    (q.plan o inside a).FaultFree root := by
  rcases hAccepted with ⟨s, s', Γ', hGrows, hAccepts⟩
  rcases hGrows.slot hTyped hSlot with ⟨hSlot', hSame⟩
  refine h hAccepts hGrows.typed hSlot' ?_ hRead inside
  unfold SchemaPool.MayMeet at hMeets ⊢
  rw [Progress.pool, hSame]
  exact hMeets

/- The value of a typed slot may be met there. -/
theorem SlotTypes.Types.exists_mayMeet
    {t : TypeTable}
    {Γ : SlotTypes}
    {slot : SchemaId}
    {v : Value}
    (h : Γ.Types t slot v)
    (p : SchemaPool) :
    ∃ T, Γ[slot]? = some T ∧ p.MayMeet t slot T v := by
  rcases h with ⟨T, hSlot, hValue⟩
  exact ⟨T, hSlot, .inl hValue⟩

variable {Γ : SlotTypes}
variable {s s' : Progress}
variable {slot : SchemaId}
variable {T : ValueType}
variable {a : Access}
variable {v : Value}

/- A literal is compared with values of its type. -/
theorem SchemaPool.MayMeet.faultFree_literal
    (hTyped : s.registry.Typed ctx.table Γ)
    (hSlot : Γ[slot]? = some T)
    (hMeets : s.pool.MayMeet ctx.table slot T v)
    (hRead : a.Reads root v)
    {l : Literal}
    {meaning : CheckedLiteral}
    (hMeaning : s.pool.checkLiteral ctx.marker slot l = .ok meaning) :
    (Plan.test (Lowered.literal a meaning).test).FaultFree root := by
  have hDescribes := hTyped.pool.described slot T hSlot
  rcases hMeets.exists_holds hDescribes hMeaning with ⟨b, hHolds⟩
  refine Plan.faultFree_leaf (b := b) (by cases meaning <;> trivial) ?_
  rw [Lowered.reading_literal (hRead .empty), hHolds]

/- A test for a type never faults. -/
theorem TypeTested.faultFree
    {span : Span}
    {target : DescriptorId}
    {q : Checked}
    (h : TypeTested ctx span slot target s q)
    (hRead : a.Reads root v)
    (inside : Bool) :
    (q.plan o inside a).FaultFree root := by
  cases h with
  | holds => exact Plan.faultFree_always
  | tested =>
      exact Plan.faultFree_leaf trivial
        (hRead.answer rfl rfl .empty)

/- What a present optional holds is read only if it is there. -/
theorem Plan.faultFree_some
    (hOptional : v = .none ∨ ∃ w, v = .some w)
    (hRead : a.Reads root v)
    {p : Plan}
    (h :
      ∀ w, v = .some w → (Access.payload a).Reads root w →
        p.FaultFree root) :
    (Plan.all [.test (.isSome a), p]).FaultFree root := by
  have hPresence :
      ∃ b, (∀ c, (Test.isSome a).reading root c = .ok b) ∧
        (b = true → ∃ w, v = .some w) := by
    rcases hOptional with rfl | ⟨w, rfl⟩
    · exact ⟨false, hRead.answer rfl rfl, nofun⟩
    · exact ⟨true, hRead.answer rfl rfl, fun _ => ⟨w, rfl⟩⟩
  rcases hPresence with ⟨b, hReading, hThere⟩
  refine faultFree_all (FaultFree.cons
    (faultFree_leaf trivial (hReading .empty)) fun hMight => ?_)
  have hTrue := Test.eq_of_might (t := .isSome a) trivial hReading
    (might_test_iff.mp hMight)
  rcases hThere hTrue.symm with ⟨w, rfl⟩
  exact (h w rfl hRead.payload).cons fun _ => faultFreeInTurn_nil

/-
  The pin and the fields of an object are read only if it has
  the asked type and is not nil where that is excluded.
-/
theorem Checked.faultFree_object
    {head : ObjectHead}
    {fields : List (FieldRead × Checked)}
    (hRead : a.Reads root v)
    (h :
      (∀ name ∈ head.runtimeType, v.isOfType name = true) →
      (head.nilCheck = true → v ≠ .nil) →
      (∀ pin ∈ head.pin, ∃ b, pin.holds v = .ok b) ∧
      ((∀ pin ∈ head.pin, (Plan.test (Lowered.pin a pin)).Might root true) →
        Plan.FaultFreeInTurn root (planFields o inside fields a)))
    (span : Span) :
    ((Checked.object span head fields).plan o inside a).FaultFree root := by
  simp only [plan, Lowered.objectTests, List.map_append, List.append_assoc]
  have hType := fun name => hRead.answer (t := .typeIs a name) rfl rfl
  have hNotNil := hRead.answer (t := .isNotNil a) rfl rfl
  refine Plan.faultFree_all (Plan.FaultFreeInTurn.append ?_ fun hFirst =>
    Plan.FaultFreeInTurn.append ?_ fun hSecond => ?_)
  · refine Plan.faultFreeInTurn_of_forall fun p hp => ?_
    simp only [List.mem_map, Option.mem_toList, Option.map_eq_some_iff] at hp
    rcases hp with ⟨t, ⟨name, -, rfl⟩, rfl⟩
    exact Plan.faultFree_leaf trivial (hType name .empty)
  · refine Plan.faultFreeInTurn_of_forall fun p hp => ?_
    split at hp
    · cases List.mem_singleton.mp hp
      exact Plan.faultFree_leaf trivial (hNotNil .empty)
    · cases hp
  · have hTested : ∀ name ∈ head.runtimeType, v.isOfType name = true := by
      intro name hName
      refine (Test.eq_of_might (t := .typeIs a name) trivial (hType name)
        (Plan.might_test_iff.mp (hFirst _ ?_))).symm
      simp only [List.mem_map, Option.mem_toList, Option.map_eq_some_iff]
      exact ⟨_, ⟨name, hName, rfl⟩, rfl⟩
    have hSome : head.nilCheck = true → v ≠ .nil := by
      rintro hCheck rfl
      rw [if_pos hCheck] at hSecond
      cases Test.eq_of_might (t := .isNotNil a) trivial hNotNil
        (Plan.might_test_iff.mp (hSecond _ List.mem_cons_self))
    rcases h hTested hSome with ⟨hPin, hFields⟩
    refine Plan.FaultFreeInTurn.append ?_ fun hThird =>
      hFields fun pin hMem => hThird _ ?_
    · refine Plan.faultFreeInTurn_of_forall fun p hp => ?_
      simp only [List.mem_map, Option.mem_toList,
        Option.map_eq_some_iff] at hp
      rcases hp with ⟨t, ⟨pin, hMem, rfl⟩, rfl⟩
      rcases hPin pin hMem with ⟨b, hHolds⟩
      exact Plan.faultFree_leaf (Lowered.isLeaf_pin a pin)
        ((Lowered.reading_pin (hRead .empty) pin).trans hHolds)
    · simp only [List.mem_map, Option.mem_toList, Option.map_eq_some_iff]
      exact ⟨_, ⟨pin, hMem, rfl⟩, rfl⟩

/-
  The fields that an object pattern reads are there, the
  discriminator first and then those that it pins.
-/
theorem Describes.faultFree_fields
    (hFit : ctx.table.FitForMatching)
    {target : Schema}
    (h : Describes ctx.table Γ T target)
    (hTypes : target.HasParts → HasType ctx.table T v ∧ v.IsObject)
    {s₁ s₂ s₃ : Progress}
    (hTyped : s₁.registry.Typed ctx.table Γ)
    {span : Span}
    {caseName : Option String}
    {fields : List (FieldName × Pattern)}
    {args : List Pattern}
    {fromCase : Option (List Member)}
    {disc rest : List (FieldRead × Checked)}
    (hCase :
      caseName.mapM (fun c => target.pinCase ctx.marker c span) =
        .ok fromCase)
    (hDisc :
      AcceptsAll ctx (target.discriminatorParts fields) s₁ disc s₂)
    (hRest :
      AcceptsAll ctx
        (target.namedParts (target.pinnedBy fromCase disc) fields ++
          target.unnamedParts (target.pinnedBy fromCase disc) args)
        s₂ rest s₃)
    (hFields : ∀ f ∈ fields, f.2.ReadSafely ctx o root)
    (hArgs : ∀ p ∈ args, p.ReadSafely ctx o root)
    (hRead : a.Reads root v)
    (hPin :
      ∀ labels, fromCase = some labels →
        (Plan.test (Lowered.pin a
          { discriminator := target.discriminatorName
            labels })).Might root true)
    (inside : Bool) :
    Plan.FaultFreeInTurn root
      (Checked.planFields o inside (disc ++ rest) a) := by
  have hBranch : target.discriminator.isSome = true →
      ∃ part ms w m, target.InBranch ctx.table Γ part ms v w m := by
    intro hSome
    rcases hTypes (.inr hSome) with ⟨hType, hObject⟩
    exact h.exists_inBranch hFit.varies hType hObject hSome
  rw [Checked.planFields_append]
  refine Plan.FaultFreeInTurn.append
    (Checked.faultFree_fields fun f hf => ?_) fun hParts =>
      Checked.faultFree_fields fun f hf => ?_
  · rcases hDisc.exists_acceptedAt hFit.free hTyped
      (fun part => h.exists_type_of_discriminatorPart) hf with
      ⟨slot, p, hPart, -⟩
    rcases Schema.exists_discriminator_of_mem hPart with ⟨d, hd, -, -⟩
    rcases hBranch (Option.isSome_iff_exists.mpr ⟨d, hd⟩) with
      ⟨part, ms, w, m, hIn⟩
    rcases hIn.exists_acceptedAt hFit.free hTyped hDisc hf with
      ⟨hName, slot, given, hGiven, hSlot, hAccepted⟩
    exact (hFields given hGiven).acceptedAt hAccepted hTyped hSlot
      (.inl hIn.tag.typed) (hRead.field (hName ▸ hIn.field)) inside
  · have hUnion :
        ∀ labels, target.pinnedBy fromCase disc = some labels →
          target.discriminator.isSome = true :=
      h.isSome_discriminator_of_pinned hCase hDisc
    rcases hDisc.growsTyped hFit.free hTyped
      (fun part => h.exists_type_of_discriminatorPart) with
      ⟨Γ₂, hGrows⟩
    rcases hRest.exists_acceptedAt hFit.free hGrows.typed
      (fun part hPart => SlotTypes.exists_kept hGrows.types
        (h.exists_type_of_part hUnion hPart)) hf with
      ⟨slot, p, hPart, hAccepted⟩
    rcases Schema.partField_of_mem hPart with ⟨g, hName, hSlot, hField⟩
    have hFound : g.ReadFrom ctx.table Γ v := by
      cases hField with
      | shared hShared _ =>
          rcases hTypes (.inl (List.ne_nil_of_mem hShared)) with
            ⟨hType, hObject⟩
          exact h.readFrom hType hObject hShared
      | branch hPinned hFirst hBranched hOwn hOwners =>
          rcases hBranch (hUnion _ hPinned) with ⟨part, ms, w, m, hIn⟩
          refine hIn.readFrom ?_ hBranched hOwn hOwners
          have hMight :
              ∀ f ∈ disc,
                (f.2.plan o inside (.field a f.1.name)).Might root true :=
            fun f hf => hParts _ (Checked.mem_planFields.mpr ⟨f, hf, rfl⟩)
          exact hIn.mem_pinned hFit.free hTyped hRead hCase hDisc hPin hMight
            hPinned
    have hSafe : p.ReadSafely ctx o root := by
      rcases List.mem_append.mp hPart with hPart | hPart
      · rcases Schema.exists_of_mem_namedParts hPart with ⟨f, hf, hEq, -⟩
        cases hEq
        exact hFields f hf
      · exact hArgs _ (Schema.mem_of_mem_unnamedParts hPart)
    rcases hFound with ⟨w, hw, hTypes⟩
    rcases (hTypes.mono hGrows.types).exists_mayMeet s₂.registry.pool with
      ⟨U, hU, hMeets⟩
    cases hSlot
    refine hSafe.acceptedAt hAccepted hGrows.typed hU hMeets
      (hRead.field ?_) inside
    rw [hName]
    exact hw

/- An object pattern fits the objects of its type. -/
theorem SchemaPool.MayMeet.faultFree_object
    (hFit : ctx.table.FitForMatching)
    (hTyped : s.registry.Typed ctx.table Γ)
    (hSlot : Γ[slot]? = some T)
    (hMeets : s.pool.MayMeet ctx.table slot T v)
    (hRead : a.Reads root v)
    {span : Span}
    {head : ConstructorHead}
    {fields : List (FieldName × Pattern)}
    {args : List Pattern}
    {resolved : ResolvedHead}
    {target : Schema}
    {fromCase : Option (List Member)}
    {disc rest : List (FieldRead × Checked)}
    {s₁ s₂ s₃ : Progress}
    (hKind :
      (s.pool.get slot).structuralKind = .record ∨
        (s.pool.get slot).structuralKind = .union)
    (hHead : HeadMeans ctx slot head s resolved s₁)
    (hSchema : s₁.pool.get resolved.target = target)
    (hCase :
      resolved.caseName.mapM
        (fun c => target.pinCase ctx.marker c span) = .ok fromCase)
    (hDisc :
      AcceptsAll ctx (target.discriminatorParts fields) s₁ disc s₂)
    (hRest :
      AcceptsAll ctx
        (target.namedParts (target.pinnedBy fromCase disc) fields ++
          target.unnamedParts (target.pinnedBy fromCase disc) args)
        s₂ rest s₃)
    (hFields : ∀ f ∈ fields, f.2.ReadSafely ctx o root)
    (hArgs : ∀ p ∈ args, p.ReadSafely ctx o root)
    (inside : Bool) :
    ((Checked.object span
        { schema := resolved.target
          nilCheck := (s.pool.get slot).isReference
          runtimeType := resolved.runtimeType
          pin := fromCase.map fun labels =>
            { discriminator := target.discriminatorName, labels } }
        (disc ++ rest)).plan o inside a).FaultFree root := by
  have hValue : HasType ctx.table T v := by
    have hDescribes := hTyped.pool.described slot T hSlot
    rcases hKind with hKind | hKind
    · exact (hMeets.admits hDescribes hKind (by decide)).1
    · exact (hMeets.admits hDescribes hKind (by decide)).1
  refine Checked.faultFree_object hRead (fun hTested hNil => ?_) span
  rcases hHead.exists_meets hFit.free hFit.names hFit.refers hTyped hSlot
    hKind hValue hTested hNil with ⟨Γ₁, T', hGrows, hTarget, hParts⟩
  have hDescribes : Describes ctx.table Γ₁ T' target :=
    hSchema ▸ hGrows.typed.pool.described _ T' hTarget
  rw [hSchema] at hParts
  refine ⟨fun pin hPin => ?_, fun hPin => ?_⟩
  · rcases Option.map_eq_some_iff.mp hPin with ⟨labels, rfl, rfl⟩
    rcases Schema.exists_pinCase hCase with ⟨c, hPinned⟩
    have hSome := hDescribes.isSome_discriminator
      (Schema.structuralKind_of_pinCase hPinned)
    rcases hParts (.inr hSome) with ⟨hType, hObject⟩
    rcases hDescribes.exists_inBranch hFit.varies hType hObject hSome with
      ⟨part, ms, w, m, hIn⟩
    rcases hIn.pin_holds hCase with ⟨k, -, -, hHolds⟩
    exact ⟨_, hHolds⟩
  · refine hDescribes.faultFree_fields hFit hParts hGrows.typed hCase hDisc
      hRest hFields hArgs hRead (fun labels hLabels => ?_) inside
    exact hPin _ (Option.map_eq_some_iff.mpr ⟨labels, hLabels, rfl⟩)

/- A sequence pattern fits the sequences of its type. -/
theorem SchemaPool.MayMeet.faultFree_seq
    (hFit : ctx.table.FitForMatching)
    (hTyped : s.registry.Typed ctx.table Γ)
    (hSlot : Γ[slot]? = some T)
    (hMeets : s.pool.MayMeet ctx.table slot T v)
    (hRead : a.Reads root v)
    {span : Span}
    {element : SchemaId}
    {es : List (SeqElement Pattern)}
    {items : List (Option Literal × Checked)}
    {spread : Option Checked}
    {s₁ s₂ : Progress}
    (hKind :
      (s.pool.get slot).structuralKind = .sequence ∨
        (s.pool.get slot).structuralKind = .array)
    (hElement : (s.pool.get slot).element = some element)
    (hDefaults :
      ∀ p l, .item p (some l) ∈ es →
        ∃ meaning,
          s.pool.checkLiteral ctx.marker element l = .ok meaning)
    (hPlain : ∀ p l, .item p (some l) ∈ es → l.isPlain = true)
    (hItems :
      AcceptsAll ctx (SeqElement.itemParts element es) s items s₁)
    (hSpread :
      AcceptsSpread ctx element (SeqElement.spreadPattern? es) s₁
        spread s₂)
    (hElements :
      ∀ e ∈ es, ∀ p ∈ e.pattern?, p.ReadSafely ctx o root)
    (inside : Bool) :
    ((Checked.seq span (SeqElement.layout es)
        (s.pool.get slot).fixedLength? (items.map Prod.snd)
        spread).plan o inside a).FaultFree root := by
  have hDescribes := hTyped.pool.described slot T hSlot
  rcases hDescribes.contents element (.inl hElement) with ⟨U, hU⟩
  rcases hMeets.exists_items hDescribes hKind hElement hU with
    ⟨values, rfl, hFixed, hTypes⟩
  have hSlots :
      ∀ part ∈ SeqElement.itemParts element es, ∃ U, Γ[part.2.1]? = some U :=
    fun part hPart => ⟨U, (SeqElement.exists_of_mem_itemParts hPart).2 ▸ hU⟩
  refine Checked.faultFree_seq hRead rfl hFixed (fun q hq b w hb hw => ?_)
    (fun q hq b range w hw hb => ?_) span
  · rcases List.mem_map.mp hq with ⟨item, hItem, rfl⟩
    rcases hItems.exists_acceptedAt hFit.free hTyped hSlots hItem with
      ⟨slot', p, hPart, hAccepted⟩
    rcases SeqElement.exists_of_mem_itemParts hPart with ⟨hMem, hSame⟩
    cases hSame
    refine (hElements _ hMem p rfl).acceptedAt hAccepted hTyped hU ?_ hb
      inside
    rcases hw with hw | ⟨value, hDefault, rfl⟩
    · exact .inl (hTypes w hw)
    · -- The element type of an accepted default is loose.
      rcases List.mem_filterMap.mp hDefault with ⟨e, he, hValue⟩
      cases e with
      | spread p span => cases hValue
      | item p d =>
          cases hValue
          rcases hDefaults p value he with ⟨meaning, hMeaning⟩
          exact .inr (SchemaPool.isLoose_of_checkLiteral (hPlain p value he)
            hMeaning)
  · rcases hItems.growsTyped hFit.free hTyped hSlots with ⟨Γ₁, hGrows⟩
    generalize hPattern : SeqElement.spreadPattern? es = p at hSpread
    cases hSpread with
    | none => cases hq
    | some hInner =>
        cases hq
        rename_i p
        rcases SeqElement.exists_of_spreadPattern? hPattern with ⟨e, he, hp⟩
        rcases hGrows.typed.sequenceOf (SlotTypes.kept hGrows.types hU) with
          ⟨Γ₂, hGrows₂, hSlot₂⟩
        refine hElements e he p hp hInner hGrows₂.typed hSlot₂ (.inl ?_) hb
          inside
        cases hw
        exact .sequenceOf fun w hw =>
          hTypes w (List.mem_of_mem_take (List.mem_of_mem_drop hw))

/- A tuple pattern fits the tuples of its type. -/
theorem SchemaPool.MayMeet.faultFree_tuple
    (hFit : ctx.table.FitForMatching)
    (hTyped : s.registry.Typed ctx.table Γ)
    (hSlot : Γ[slot]? = some T)
    (hMeets : s.pool.MayMeet ctx.table slot T v)
    (hRead : a.Reads root v)
    {span : Span}
    {es : List (SeqElement Pattern)}
    {items : List (Nat × Checked)}
    (hKind : (s.pool.get slot).structuralKind = .tuple)
    (hItems :
      AcceptsAll ctx
        (SeqElement.tupleParts es (s.pool.get slot).fields) s items s')
    (hElements :
      ∀ e ∈ es, ∀ p ∈ e.pattern?, p.ReadSafely ctx o root)
    (inside : Bool) :
    ((Checked.tuple span items).plan o inside a).FaultFree root := by
  have hAdmits := (hMeets.admits (hTyped.pool.described slot T hSlot) hKind
    (by decide)).2
  unfold Schema.Admits at hAdmits
  rw [Schema.kind_of_structuralKind hKind (by decide)] at hAdmits
  rcases hAdmits with ⟨values, rfl, hPlaces⟩
  have hSlots :
      ∀ part ∈ SeqElement.tupleParts es (s.pool.get slot).fields,
        ∃ U, Γ[part.2.1]? = some U := by
    intro part hPart
    rcases SeqElement.exists_field_of_mem_tupleParts hPart with
      ⟨f, hf, -, hSame⟩
    rcases hPlaces f hf with ⟨w, -, U, hU, -⟩
    exact ⟨U, hSame ▸ hU⟩
  refine Plan.faultFree_all (Checked.faultFree_tuple fun i hi => ?_)
  rcases hItems.exists_acceptedAt hFit.free hTyped hSlots hi with
    ⟨slot', p, hPart, hAccepted⟩
  rcases SeqElement.exists_field_of_mem_tupleParts hPart with
    ⟨f, hf, hPlace, hSame⟩
  rcases SeqElement.exists_of_mem_tupleParts hPart with ⟨e, he, hp⟩
  rcases hPlaces f hf with ⟨w, hw, hTypes⟩
  cases hSame
  rcases hTypes.exists_mayMeet s.registry.pool with ⟨U, hU, hMeets⟩
  refine (hElements e he p hp).acceptedAt hAccepted hTyped hU hMeets
    (hRead.item rfl ?_) inside
  rw [← hw]
  exact congrArg (values[·]?) hPlace

/- A map pattern fits the maps of its type. -/
theorem SchemaPool.MayMeet.faultFree_map
    (hFit : ctx.table.FitForMatching)
    (hTyped : s.registry.Typed ctx.table Γ)
    (hSlot : Γ[slot]? = some T)
    (hMeets : s.pool.MayMeet ctx.table slot T v)
    (hRead : a.Reads root v)
    {span : Span}
    {key value : SchemaId}
    {es : List (Literal × Pattern)}
    {entries : List (Literal × Checked)}
    (hKey : (s.pool.get slot).key = some key)
    (hValue : (s.pool.get slot).value = some value)
    (hEntries : AcceptsAll ctx (entryParts value es) s entries s')
    (hElements : ∀ e ∈ es, e.2.ReadSafely ctx o root)
    (inside : Bool) :
    ((Checked.map span entries).plan o inside a).FaultFree root := by
  have hDescribes : Describes ctx.table Γ T (s.pool.get slot) :=
    hTyped.pool.described slot T hSlot
  have hMap := hDescribes.entries (Option.isSome_of_mem hKey)
  have hKind : (s.pool.get slot).structuralKind = .map := by
    rw [Schema.structuralKind, hMap]
    rfl
  have hAdmits := (hMeets.admits hDescribes hKind (by decide)).2
  unfold Schema.Admits at hAdmits
  rw [hMap] at hAdmits
  rcases hAdmits with ⟨found, rfl, hTypes⟩
  rcases hDescribes.contents value (.inr hValue) with ⟨U, hU⟩
  have hSlots :
      ∀ part ∈ entryParts value es, ∃ U, Γ[part.2.1]? = some U := by
    intro part hPart
    rcases List.mem_map.mp hPart with ⟨entry, -, rfl⟩
    exact ⟨U, hU⟩
  refine Plan.faultFree_all
    (Checked.faultFree_entries hRead fun e he w hw => ?_)
  rcases hEntries.exists_acceptedAt hFit.free hTyped hSlots he with
    ⟨slot', p, hPart, hAccepted⟩
  rcases List.mem_map.mp hPart with ⟨⟨k', p'⟩, hEntry, hSame⟩
  cases hSame
  rcases Option.map_eq_some_iff.mp hw with ⟨there, hThere, rfl⟩
  rcases (hTypes value hValue there
    (List.mem_of_find?_eq_some hThere)).exists_mayMeet s.registry.pool with
    ⟨U', hU', hMeets⟩
  exact (hElements _ hEntry).acceptedAt hAccepted hTyped hU' hMeets
    (hRead.mapValue hw) inside

/- A set pattern fits the sets of its type. -/
theorem SchemaPool.MayMeet.faultFree_set
    (hTyped : s.registry.Typed ctx.table Γ)
    (hSlot : Γ[slot]? = some T)
    (hMeets : s.pool.MayMeet ctx.table slot T v)
    (hRead : a.Reads root v)
    {element : SchemaId}
    {members : List SetMember}
    {exact : Bool}
    (hKind : (s.pool.get slot).structuralKind = .set)
    (hElement : (s.pool.get slot).element = some element) :
    (Plan.test
      (Lowered.set o a
        { members, exact,
          domain := s.pool.ordinalDomain element })).FaultFree root := by
  have hDescribes : Describes ctx.table Γ T (s.pool.get slot) :=
    hTyped.pool.described slot T hSlot
  have hAdmits := (hMeets.admits hDescribes hKind (by decide)).2
  unfold Schema.Admits at hAdmits
  rw [Schema.kind_of_structuralKind hKind (by decide)] at hAdmits
  rcases hAdmits with ⟨items, rfl, hTypes⟩
  rcases hDescribes.contents element (.inl hElement) with ⟨U, hU⟩
  have hItems : ∀ w ∈ items, HasType ctx.table U w := by
    intro w hw
    rcases hTypes element hElement w hw with ⟨U', hU', hType⟩
    cases hU.symm.trans hU'
    exact hType
  rcases Lowered.exists_reading_set (hTyped.pool.described element U hU)
    hItems (hRead .empty) o members exact with ⟨b, hb⟩
  exact Plan.faultFree_leaf (Lowered.isLeaf_set _ _ _) hb

/-
  Matching a pattern whose defaults are plain does not fault
  on the values that it may meet.
-/
theorem Pattern.readSafely
    (hFit : ctx.table.FitForMatching)
    {p : Pattern}
    (hPlain : p.PlainDefaults) :
    p.ReadSafely ctx o root := by
  induction p using Pattern.partInduction with
  | wildcard =>
      intro Γ s s' slot T q h hTyped hSlot a v hMeets hRead inside
      cases h
      exact Plan.faultFree_always
  | bind span x =>
      intro Γ s s' slot T q h hTyped hSlot a v hMeets hRead inside
      cases h
      exact Plan.faultFree_always.bind x (hRead .empty)
  | literal =>
      intro Γ s s' slot T q h hTyped hSlot a v hMeets hRead inside
      cases h with
      | literal hMeaning =>
          exact hMeets.faultFree_literal hTyped hSlot hRead hMeaning
  | alt span ps ih =>
      intro Γ s s' slot T q h hTyped hSlot a v hMeets hRead inside
      cases h with
      | alt hBranches =>
          refine Checked.faultFree_branches fun q hq => ?_
          rcases List.mem_map.mp hq with ⟨b, hb, rfl⟩
          rcases hBranches.exists_acceptedAt hFit.free hTyped hSlot hb with
            ⟨p, hp, hAccepted⟩
          exact (ih p hp fun l hl => hPlain l (.alt hp hl)).acceptedAt
            hAccepted hTyped hSlot hMeets hRead true
  | guarded span p g ih =>
      intro Γ s s' slot T q h hTyped hSlot a v hMeets hRead inside
      cases h with
      | guarded hInner =>
          have hSafe := ih (fun l hl => hPlain l (.guarded hl)) hInner
            hTyped hSlot hMeets hRead inside
          simp only [Checked.plan]
          split
          · exact Plan.faultFree_all (hSafe.cons fun _ =>
              (Plan.faultFree_guard _).cons fun _ =>
                Plan.faultFreeInTurn_nil)
          · exact hSafe
  | named span x p ih =>
      intro Γ s s' slot T q h hTyped hSlot a v hMeets hRead inside
      cases h with
      | named hInner =>
          exact (ih (fun l hl => hPlain l (.named hl)) hInner hTyped hSlot
            hMeets hRead inside).bind x (hRead .empty)
  | constructor span head fields args ihFields ihArgs =>
      intro Γ s s' slot T q h hTyped hSlot a v hMeets hRead inside
      have hFields := fun f hf =>
        ihFields f hf fun l hl => hPlain l (.field hf hl)
      have hArgs := fun p hp => ihArgs p hp fun l hl => hPlain l (.arg hp hl)
      have hOptional :
          (s.pool.get slot).structuralKind = .optional →
            v = .none ∨ ∃ w, v = .some w ∧
              ∀ slot' ∈ (s.pool.get slot).element,
                Γ.Types ctx.table slot' w := by
        intro hKind
        have hAdmits := (hMeets.admits (hTyped.pool.described slot T hSlot)
          hKind (by decide)).2
        unfold Schema.Admits at hAdmits
        rw [Schema.kind_of_structuralKind hKind (by decide)] at hAdmits
        exact hAdmits
      cases h with
      | some hKind hElement hInner =>
          refine Plan.faultFree_some
            ((hOptional hKind).imp_right fun ⟨w, hw, _⟩ => ⟨w, hw⟩) hRead
            fun w hw hPayload => ?_
          subst hw
          rcases hOptional hKind with hNone | ⟨w', hw', hTypes⟩
          · cases hNone
          · cases hw'
            rcases (hTypes _ hElement).exists_mayMeet s.pool with
              ⟨U, hU, hMeets⟩
            exact hArgs _ List.mem_cons_self hInner hTyped hU hMeets
              hPayload inside
      | someUnknown hKind =>
          exact Plan.faultFree_some
            ((hOptional hKind).imp_right fun ⟨w, hw, _⟩ => ⟨w, hw⟩) hRead
            fun w hw hPayload => Plan.faultFree_always
      | none hKind =>
          rcases hOptional hKind with rfl | ⟨w, rfl, -⟩
          · exact Plan.faultFree_leaf trivial (hRead.answer rfl rfl .empty)
          · exact Plan.faultFree_leaf trivial (hRead.answer rfl rfl .empty)
      | object hKind hHead hSchema hCase hDisc hRest =>
          exact hMeets.faultFree_object hFit hTyped hSlot hRead hKind hHead
            hSchema hCase hDisc hRest hFields hArgs inside
  | seq span es ih =>
      intro Γ s s' slot T q h hTyped hSlot a v hMeets hRead inside
      have hElements := fun e he p hp =>
        ih e he p hp fun l hl => hPlain l (.element he hp hl)
      cases h with
      | seq hOne hKind hElement hDefaults hFixed hItems hSpread =>
          exact hMeets.faultFree_seq hFit hTyped hSlot hRead hKind hElement
            hDefaults (fun p l hl => hPlain l (.slot hl)) hItems hSpread
            hElements inside
      | tuple hKind hItems =>
          exact hMeets.faultFree_tuple hFit hTyped hSlot hRead hKind hItems
            hElements inside
  | typeTest =>
      intro Γ s s' slot T q h hTyped hSlot a v hMeets hRead inside
      cases h with
      | typeTest hTested => exact hTested.faultFree hRead inside
  | narrow =>
      intro Γ s s' slot T q h hTyped hSlot a v hMeets hRead inside
      cases h with
      | narrow hTested =>
          exact (hTested.faultFree hRead inside).bind _ (hRead .empty)
  | map span es ih =>
      intro Γ s s' slot T q h hTyped hSlot a v hMeets hRead inside
      cases h with
      | map hKey hValue hEntries =>
          exact hMeets.faultFree_map hFit hTyped hSlot hRead hKey hValue
            hEntries (fun e he => ih e he fun l hl => hPlain l (.entry he hl))
            inside
  | set =>
      intro Γ s s' slot T q h hTyped hSlot a v hMeets hRead inside
      cases h with
      | set hKind hElement hMembers =>
          exact hMeets.faultFree_set hTyped hSlot hRead hKind hElement

end

end MatchCompiler

------------------------------------------------------------
-- Matches
------------------------------------------------------------

namespace MatchCompiler

/-
  A match whose patterns are accepted and have plain defaults
  does not fault on the values of its type: neither a test
  nor a binding reads what is not there, whatever the guards
  answer.
-/
theorem execute_fits_typed_value
    {ctx : CheckContext}
    (hFit : ctx.table.FitForMatching)
    {id : DescriptorId}
    {ps : List Pattern}
    (hPlain : ∀ p ∈ ps, p.PlainDefaults)
    {slot : SchemaId}
    {r : Registry}
    {arms : List CheckedArm}
    (hMatch : ctx.AcceptsMatch id ps slot r arms)
    {v : Value}
    (hValue : HasType ctx.table (ctx.table.typeOf (.described id)) v)
    (o : LoweringOptions)
    (exhaustive : Bool)
    {σ : Type}
    (host : GuardHost σ)
    (state : σ)
    (cause : ShapeMismatch) :
    ((Procedure.ofArms o arms slot exhaustive).execute host v state).1 ≠
      .error (.shapeMismatch cause) := by
  rcases hMatch.exists_typed hFit.free with
    ⟨Γ, r₀, T, hTyped, hSlot, hType, -, hArms⟩
  have hMeets : r₀.pool.MayMeet ctx.table slot T v := by
    rcases hType with rfl | rfl
    · exact .inl hValue
    · exact .inl (.unknown .anything v)
  refine Procedure.execute_ne_shapeMismatch (fun arm hArm => ?_) slot
    exhaustive state cause
  rcases hArms arm hArm with ⟨p, hp, hFrom, hAccepted⟩
  exact ⟨⟨p, hFrom⟩, (Pattern.readSafely hFit (hPlain p hp)).acceptedAt
    hAccepted hTyped hSlot hMeets (fun _ => rfl) false⟩

theorem TypeTable.lt_of_shape?
    {t : TypeTable}
    {id : DescriptorId}
    {shape : Shape}
    (h : t.shape? id = some shape) :
    id < t.descriptors.size := by
  rcases Option.map_eq_some_iff.mp h with ⟨d, hd, -⟩
  exact (Array.getElem?_eq_some_iff.mp hd).1

/- A node that is a leaf or a list of counts, and references. -/
def countedNode : TypeTable :=
  { descriptors :=
      #[{ name := "Kind",
          shape := .enumeration [⟨"nkLeaf", 0⟩, ⟨"nkList", 1⟩] },
        { name := "int", shape := .primitive .i64 },
        { name := "Counts",
          shape := .container .sequence [.described 1] },
        { name := "Node",
          shape := .object
            { variant := some
                { discriminator := ⟨"kind", .described 0, false⟩,
                  branches :=
                    [⟨.labels ["nkLeaf"],
                      [⟨"size", .described 1, false⟩]⟩,
                      ⟨.labels ["nkList"],
                        [⟨"counts", .described 2, false⟩]⟩] } } },
        { name := "NodeRef", shape := .reference (.described 3) }] }

/- The second arm takes a default, and asks about both counts. -/
def countedNodePatterns : List Pattern :=
  [.constructor {} { typeName := some "Node", caseName := some "Leaf" }
      [(⟨"size", {}⟩, .bind {} "size")] [],
    .guarded {}
      (.constructor {} { typeName := some "Node", caseName := some "List" }
        [(⟨"counts", {}⟩,
          .seq {}
            [.item (.bind {} "first") none,
              .item (.bind {} "second") (some (.int 7 none))])] [])
      { id := 0, text := "first < second", uses := ["first", "second"] }]

/- A list with one count. -/
def listNode : Value :=
  .object ["Node"] [("kind", .member "nkList" 1), ("counts", .seq [.int 1])]

theorem countedNode_fitForMatching :
    countedNode.FitForMatching := by
  refine ⟨TypeTable.templateFree_of_all (by decide +kernel),
    TypeTable.distinctNames_of_nodup (by decide +kernel), ?_, ?_, ?_⟩
  · rintro T U ⟨hShape⟩
    rename_i id target
    have hLt : id < 5 := TypeTable.lt_of_shape? hShape
    interval_cases id <;> cases hShape
    exact ⟨_, .refl _, .inr ⟨3, _, rfl, rfl⟩⟩
  · intro id o part hShape hPart
    have hLt : id < 5 := TypeTable.lt_of_shape? hShape
    interval_cases id <;> cases hShape
    cases hPart
    exact ⟨0, _, .enumeration rfl, by decide⟩
  · intro id o part hShape hPart
    have hLt : id < 5 := TypeTable.lt_of_shape? hShape
    interval_cases id <;> cases hShape
    cases hPart
    rintro b hb b' hb' -
    revert b b'
    decide

theorem listNode_hasType :
    HasType countedNode (.described 4) listNode := by
  have hShows :
      countedNode.Shows .reference (.described 4)
        (countedNode.typeOf (.described 3)) :=
    .view rfl
  refine .view hShows ?_
  have hLineage : Lineage countedNode [3] ["Node"] :=
    @Lineage.root countedNode 3 _ _ rfl rfl rfl
  refine .object_of_fields hLineage (List.mem_singleton_self 3) ?_
  intro level hLevel o hShape
  cases List.mem_singleton.mp hLevel
  cases hShape
  refine List.forall_mem_cons.mpr ⟨⟨_, rfl, ?_⟩, ?_⟩
  · exact .enumeration (m := ⟨"nkList", 1⟩) rfl (by decide)
  · refine List.forall_mem_singleton.mpr ⟨_, rfl, .sequence rfl ?_⟩
    exact List.forall_mem_singleton.mpr (.primitive rfl rfl)

theorem countedNodePatterns_plainDefaults :
    ∀ p ∈ countedNodePatterns, p.PlainDefaults := by
  intro p hp l h
  rcases List.mem_cons.mp hp with rfl | hp
  · cases h with
    | arg hArg => cases hArg
    | field hField h =>
        cases List.mem_singleton.mp hField
        cases h
  · cases List.mem_singleton.mp hp
    rcases h with _ | _ | _ | h
    cases h with
    | arg hArg => cases hArg
    | field hField h =>
        cases List.mem_singleton.mp hField
        cases h with
        | slot hSlot =>
            rcases List.mem_pair.mp hSlot with hSlot | hSlot <;> cases hSlot
            rfl
        | element hElement hPattern h =>
            rcases List.mem_pair.mp hElement with rfl | rfl <;>
              cases hPattern <;> cases h

/- A list with one count fits the match. -/
theorem countedNode_fits :
    let ctx : CheckContext := { table := countedNode, marker := 'k' }
    let slot := (Registry.schemaOf { marker := 'k' } countedNode 4).2
    let arms := acceptedArms (ctx.checkMatch 4 countedNodePatterns).2
    arms.length = 2 ∧
    countedNode.FitForMatching ∧
    (∀ p ∈ countedNodePatterns, p.PlainDefaults) ∧
    HasType countedNode (.described 4) listNode ∧
    ∀ {σ : Type} (host : GuardHost σ) (state : σ) (cause : ShapeMismatch),
      ((Procedure.ofArms {} arms slot true).execute host listNode
        state).1 ≠ .error (.shapeMismatch cause) := by
  intro ctx slot arms
  have hMatch :
      ctx.AcceptsMatch 4 countedNodePatterns slot
        (ctx.checkMatch 4 countedNodePatterns).1 arms :=
    CheckContext.acceptsMatch_of_checkMatch (by decide +kernel)
  refine ⟨by decide +kernel, countedNode_fitForMatching,
    countedNodePatterns_plainDefaults, listNode_hasType,
    fun host state cause => ?_⟩
  exact execute_fits_typed_value countedNode_fitForMatching
    countedNodePatterns_plainDefaults hMatch listNode_hasType {} true host
    state cause

/- A union whose labels have one number. -/
def sharedOrdinal : TypeTable :=
  { descriptors :=
      #[{ name := "Kind",
          shape := .enumeration [⟨"A", 0⟩, ⟨"B", 0⟩] },
        { name := "int", shape := .primitive .i64 },
        { name := "U",
          shape := .object
            { variant := some
                { discriminator := ⟨"kind", .described 0, false⟩,
                  branches :=
                    [⟨.labels ["A"], [⟨"x", .described 1, false⟩]⟩] } }
        }] }

/- The arm reads the field of the branch of the first label. -/
def sharedOrdinalPatterns : List Pattern :=
  [.constructor {} { typeName := some "U", caseName := some "A" }
      [(⟨"x", {}⟩, .literal {} (.int 1 none))] []]

/- A value of the second label, of which no field is known. -/
theorem sharedOrdinal_hasType :
    HasType sharedOrdinal (.described 2)
      (.object ["U"] [("kind", .member "B" 0)]) := by
  have hLineage : Lineage sharedOrdinal [2] ["U"] :=
    @Lineage.root sharedOrdinal 2 _ _ rfl rfl rfl
  refine .object_of_fields hLineage (List.mem_singleton_self 2) ?_
  intro level hLevel o hShape
  cases List.mem_singleton.mp hLevel
  cases hShape
  refine List.forall_mem_singleton.mpr ⟨_, rfl, ?_⟩
  exact .enumeration (m := ⟨"B", 0⟩) rfl (by decide)

/-
  The fields of an object and of its bases have different
  names; branches of one union may share names.
-/
def TypeTable.FieldsApart (t : TypeTable) : Prop :=
  ∀ levels chain, Lineage t levels chain →
    (levels.flatMap fun level =>
      match t.shape? level with
      | some (.object o) =>
          o.shared.map FieldDecl.name ++
            ((o.variant.toList.flatMap VariantPart.branches).flatMap
              fun b => b.fields.map FieldDecl.name).dedup
      | _ => []).Nodup

/-
  Labels with one number are not told apart: a value of the
  second label passes the test for the first, and a field is
  read that it does not have.
-/
theorem sharedOrdinal_faults :
    let ctx : CheckContext := { table := sharedOrdinal, marker := 'k' }
    let arms := acceptedArms (ctx.checkMatch 2 sharedOrdinalPatterns).2
    let v := Value.object ["U"] [("kind", .member "B" 0)]
    sharedOrdinal.TemplateFree ∧
    sharedOrdinal.DistinctNames ∧
    sharedOrdinal.RefersToObjects ∧
    sharedOrdinal.FieldsApart ∧
    (∀ id o part, sharedOrdinal.shape? id = some (.object o) →
      o.variant = some part →
      (∃ n ms,
        sharedOrdinal.Lists (sharedOrdinal.typeOf part.discriminator.type)
          n ms) ∧
      ∀ b ∈ part.branches, ∀ b' ∈ part.branches,
        ∀ f ∈ b.fields, ∀ f' ∈ b'.fields, f.name = f'.name →
          f.type = f'.type) ∧
    (∀ p ∈ sharedOrdinalPatterns, p.PlainDefaults) ∧
    ctx.AcceptsMatch 2 sharedOrdinalPatterns 0
      (ctx.checkMatch 2 sharedOrdinalPatterns).1 arms ∧
    HasType sharedOrdinal (.described 2) v ∧
    ((Procedure.ofArms {} arms 0 true).execute
      (fun _ _ => (pure true : StateM Unit Bool)) v ()).1 =
        .error (.shapeMismatch .missingField) := by
  have hObject :
      ∀ {id d o}, sharedOrdinal.get? id = some d → d.shape = .object o →
        id = 2 ∧ o.base = none := by
    intro id d o hGet hShape
    have hLt : id < 3 := (Array.getElem?_eq_some_iff.mp hGet).1
    interval_cases id <;> cases hGet <;> cases hShape
    exact ⟨rfl, rfl⟩
  refine ⟨TypeTable.templateFree_of_all (by decide +kernel),
    TypeTable.distinctNames_of_nodup (by decide +kernel), ?_, ?_, ?_, ?_,
    CheckContext.acceptsMatch_of_checkMatch (by decide +kernel),
    sharedOrdinal_hasType, by decide +kernel⟩
  · rintro T U ⟨hShape⟩
    rename_i id target
    have hLt : id < 3 := TypeTable.lt_of_shape? hShape
    interval_cases id <;> cases hShape
  · intro levels chain h
    cases h with
    | root hGet hShape hBase =>
        rcases hObject hGet hShape with ⟨rfl, -⟩
        decide +kernel
    | outside hGet hShape hBase hLeads hUnknown hRest =>
        cases (hObject hGet hShape).2.symm.trans hBase
    | derived hGet hShape hBase hLeads hNext =>
        cases (hObject hGet hShape).2.symm.trans hBase
  · intro id o part hShape hPart
    have hLt : id < 3 := TypeTable.lt_of_shape? hShape
    interval_cases id <;> cases hShape
    cases hPart
    exact ⟨⟨0, _, .enumeration rfl⟩, by decide⟩
  · intro p hp l h
    cases List.mem_singleton.mp hp
    cases h with
    | arg hArg => cases hArg
    | field hField h =>
        cases List.mem_singleton.mp hField
        cases h

end MatchCompiler
