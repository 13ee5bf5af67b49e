import MatchCompiler.Proofs.Checking
import MatchCompiler.Proofs.Numbering
import MatchCompiler.Proofs.Paths

/-
  This file shows that the names in accepted patterns are in
  order.

  An accepted pattern binds every name once, and its plan
  binds just those names. The branches of an alternation bind
  the same names, and all accesses are plain.

  Key definitions include:
    * `Checked.planParts`
    * `Progress.Adds`
    * `Test.Plain`

  Key theorems include:
    * `Accepts.regular`
    * `Accepts.adds`
    * `Accepts.uniform`
-/

------------------------------------------------------------
-- Plain Accesses
------------------------------------------------------------

namespace MatchCompiler

namespace Access

theorem plain_scrutinee :
    Plain .scrutinee :=
  ⟨fun _ _ _ => rfl, nofun⟩

theorem plain_constant
    (l : Literal) :
    Plain (.constant l) :=
  ⟨fun _ _ _ => rfl, nofun⟩

variable {a : Access}

theorem Plain.field
    (h : a.Plain)
    (name : String) :
    Plain (.field a name) := by
  refine ⟨fun root c d => ?_, nofun⟩
  simp only [resolve, h.steady root c d]

theorem Plain.index
    (h : a.Plain)
    (i : ElementIndex) :
    Plain (.index a i) := by
  refine ⟨fun root c d => ?_, nofun⟩
  simp only [resolve, h.steady root c d]

theorem Plain.slice
    (h : a.Plain)
    (r : SpreadRange) :
    Plain (.slice a r) := by
  refine ⟨fun root c d => ?_, nofun⟩
  simp only [resolve, h.steady root c d]

theorem Plain.payload
    (h : a.Plain) :
    Plain (.payload a) := by
  refine ⟨fun root c d => ?_, nofun⟩
  simp only [resolve, h.steady root c d]

theorem Plain.mapValue
    (h : a.Plain)
    (key : Literal) :
    Plain (.mapValue a key) := by
  refine ⟨fun root c d => ?_, nofun⟩
  simp only [resolve, h.steady root c d]

/- A case of an access does not depend on choices. -/
theorem resolveCase_steady
    {cases : List (Nat × Access)}
    (h : ∀ e ∈ cases, e.2.Plain)
    (root : Value)
    (c d : Choices)
    (n : Nat) :
    resolveCase root c n cases = resolveCase root d n cases := by
  induction cases with
  | nil => rfl
  | cons e es ih =>
      rcases List.forall_mem_cons.mp h with ⟨hHead, hTail⟩
      unfold resolveCase
      rw [hHead.steady root c d, ih hTail]

/- What goes on from a plain access is plain. -/
theorem paths_plain :
    Paths Plain where
  field := fun ha name => ha.field name
  index := fun ha i => ha.index i
  slice := fun ha range => ha.slice range
  payload := fun ha => ha.payload
  mapValue := fun ha key => ha.mapValue key
  constant := plain_constant
  byLength := by
    intro a cases otherwise ha hCases hOtherwise
    refine ⟨fun root c d => ?_, nofun⟩
    simp only [resolve, ha.steady root c d,
      resolveCase_steady hCases root c d,
      hOtherwise.steady root c d]

end Access

end MatchCompiler

------------------------------------------------------------
-- Plans Of Parts
------------------------------------------------------------

namespace MatchCompiler

namespace Plan

theorem namesOfAll_append
    (ps qs : List Plan) :
    namesOfAll (ps ++ qs) = namesOfAll ps ++ namesOfAll qs := by
  simp only [namesOfAll_eq, List.flatMap_append]

/- Tests bind no names. -/
theorem namesOfAll_tests
    (ts : List Test) :
    namesOfAll (ts.map Plan.test) = [] := by
  induction ts with
  | nil => rfl
  | cons t ts ih => exact ih

end Plan

namespace Checked

variable {α : Type}

/-
  The plans of labelled parts: some tests for each label, and
  then the part at the label's access.
-/
def planParts
    (o : LoweringOptions)
    (inside : Bool)
    (tests : α → List Test)
    (access : α → Access)
    (parts : List (α × Checked)) : List Plan :=
  parts.flatMap fun (label, p) =>
    (tests label).map Plan.test ++ [p.plan o inside (access label)]

theorem planParts_cons
    (o : LoweringOptions)
    (inside : Bool)
    (tests : α → List Test)
    (access : α → Access)
    (part : α × Checked)
    (parts : List (α × Checked)) :
    planParts o inside tests access (part :: parts) =
      ((tests part.1).map Plan.test ++
        [part.2.plan o inside (access part.1)]) ++
        planParts o inside tests access parts :=
  rfl

theorem planParts_append
    (o : LoweringOptions)
    (inside : Bool)
    (tests : α → List Test)
    (access : α → Access)
    (parts more : List (α × Checked)) :
    planParts o inside tests access (parts ++ more) =
      planParts o inside tests access parts ++
        planParts o inside tests access more :=
  List.flatMap_append

variable (o : LoweringOptions)
variable (inside : Bool)
variable (a : Access)

theorem planFields_eq
    (fs : List (FieldRead × Checked)) :
    planFields o inside fs a =
      planParts o inside (fun _ => []) (fun f => .field a f.name)
        fs := by
  induction fs with
  | nil => rfl
  | cons f fs ih => exact congrArg _ ih

theorem planTuple_eq
    (items : List (Nat × Checked)) :
    planTuple o inside items a =
      planParts o inside (fun _ => [])
        (fun i => .index a (.fromStart i)) items := by
  induction items with
  | nil => rfl
  | cons i items ih => exact congrArg _ ih

theorem planEntries_eq
    (es : List (Literal × Checked)) :
    planEntries o inside es a =
      planParts o inside (fun key => [.hasKey a key])
        (fun key => .mapValue a key) es := by
  induction es with
  | nil => rfl
  | cons e es ih =>
      rw [planParts_cons, ← ih]
      rfl

theorem planSlots_eq
    (ps : List Checked)
    (slots : List Access) :
    planSlots o inside ps slots =
      planParts o inside (fun _ => []) (fun b => b)
        (slots.zip ps) := by
  induction ps generalizing slots with
  | nil =>
      rw [List.zip_nil_right]
      rfl
  | cons p ps ih =>
      cases slots with
      | nil => rfl
      | cons b slots => exact congrArg _ (ih slots)

theorem planBranches_eq
    (ps : List Checked) :
    planBranches o ps a = ps.map fun p => p.plan o true a := by
  induction ps with
  | nil => rfl
  | cons p ps ih => exact congrArg _ ih

/- The names of parts are those of their patterns. -/
theorem names_planParts_cons
    (tests : α → List Test)
    (access : α → Access)
    (part : α × Checked)
    (parts : List (α × Checked)) :
    Plan.namesOfAll
        (planParts o inside tests access (part :: parts)) =
      (part.2.plan o inside (access part.1)).names ++
        Plan.namesOfAll (planParts o inside tests access parts) := by
  rw [planParts_cons, Plan.namesOfAll_append, Plan.namesOfAll_append,
    Plan.namesOfAll_tests, List.nil_append]
  simp only [Plan.namesOfAll, List.append_nil]

end Checked

end MatchCompiler

------------------------------------------------------------
-- Regular Patterns
------------------------------------------------------------

namespace MatchCompiler

namespace SeqElement

/- An item has a slot, with its default. -/
theorem length_itemParts
    (element : SchemaId)
    (es : List (SeqElement Pattern)) :
    (itemParts element es).length = (layout es).slotCount := by
  change _ = (defaults es).length
  induction es with
  | nil => rfl
  | cons e es ih =>
      cases e with
      | item p d => exact congrArg Nat.succ ih
      | spread p span => exact ih

/- A spread that is bound has a place in the layout. -/
theorem isSome_spreadAt_of_spreadPattern?
    {es : List (SeqElement Pattern)}
    {p : Pattern}
    (h : spreadPattern? es = some p) :
    (layout es).spreadAt.isSome := by
  change ((spreadAt? es).map _).isSome
  rw [Option.isSome_map]
  induction es with
  | nil => cases h
  | cons e es ih =>
      cases e with
      | spread q span => rfl
      | item q d =>
          change ((spreadAt? es).map _).isSome
          rw [Option.isSome_map]
          exact ih h

end SeqElement

/- Accepted parts keep their labels. -/
theorem AcceptsAll.labels
    {ctx : CheckContext}
    {α : Type}
    {parts : List (α × SchemaId × Pattern)}
    {qs : List (α × Checked)}
    {s s' : Progress}
    (h : AcceptsAll ctx parts s qs s') :
    qs.map Prod.fst = parts.map Prod.fst := by
  match h with
  | .nil _ => rfl
  | .cons _ hTail => exact congrArg _ hTail.labels
termination_by structural h

/- There is a part for each label. -/
theorem AcceptsAll.length_eq
    {ctx : CheckContext}
    {α : Type}
    {parts : List (α × SchemaId × Pattern)}
    {qs : List (α × Checked)}
    {s s' : Progress}
    (h : AcceptsAll ctx parts s qs s') :
    qs.length = parts.length := by
  have hLength := congrArg List.length h.labels
  rwa [List.length_map, List.length_map] at hLength

/- A spread is bound to what its pattern becomes. -/
theorem AcceptsSpread.isSome_eq
    {ctx : CheckContext}
    {element : SchemaId}
    {p : Option Pattern}
    {s s' : Progress}
    {q : Option Checked}
    (h : AcceptsSpread ctx element p s q s') :
    q.isSome = p.isSome := by
  cases h <;> rfl

theorem TypeTested.regular
    {ctx : CheckContext}
    {span : Span}
    {scrutinee : SchemaId}
    {id : DescriptorId}
    {s : Progress}
    {q : Checked}
    (h : TypeTested ctx span scrutinee id s q) :
    q.Regular := by
  cases h with
  | holds => exact .wildcard span
  | tested => exact .typeIs span _ _

mutual

/- Accepted patterns are regular. -/
theorem Accepts.regular
    {ctx : CheckContext}
    {p : Pattern}
    {id : SchemaId}
    {s s' : Progress}
    {q : Checked}
    (h : Accepts ctx p id s q s') :
    q.Regular := by
  match h with
  | .wildcard span _ _ => exact .wildcard span
  | .bind span _ _ => exact .bind span _ (.wildcard span)
  | .named hInner _ => exact .bind _ _ hInner.regular
  | .literal _ => exact .literal _ _
  | .alt hBranches _ =>
      refine .alt _ fun p hp => ?_
      rcases List.mem_map.mp hp with ⟨b, hb, rfl⟩
      exact hBranches.regular b hb
  | .guarded hInner _ => exact .guarded _ _ hInner.regular
  | .some _ _ hInner => exact .some _ hInner.regular
  | .someUnknown _ => exact .some _ (.wildcard _)
  | .none _ => exact .literal _ _
  | .object _ _ _ _ hDisc hRest =>
      refine .object _ _ fun f hf => ?_
      rcases List.mem_append.mp hf with hf | hf
      · exact hDisc.regular f hf
      · exact hRest.regular f hf
  | .seq _ _ _ _ hFixed hItems hSpread =>
      have hLength := hItems.length_eq
      refine .seq _ ?_ hSpread.regular ?_ ?_ hFixed
      · intro p hp
        rcases List.mem_map.mp hp with ⟨i, hi, rfl⟩
        exact hItems.regular i hi
      · rw [List.length_map, hLength, SeqElement.length_itemParts]
      · intro hSome
        rw [hSpread.isSome_eq, Option.isSome_iff_exists] at hSome
        rcases hSome with ⟨p, hp⟩
        exact SeqElement.isSome_spreadAt_of_spreadPattern? hp
  | .tuple _ hItems => exact .tuple _ hItems.regular
  | .typeTest hTested => exact hTested.regular
  | .narrow hTested _ => exact .bind _ _ hTested.regular
  | .map _ _ hEntries => exact .map _ hEntries.regular
  | .set _ _ hMembers =>
      exact .set _ fun _ hDomain m hm _ hOrdinal =>
        (hMembers m hm).lt hDomain hOrdinal
termination_by structural h

theorem AcceptsAll.regular
    {ctx : CheckContext}
    {α : Type}
    {parts : List (α × SchemaId × Pattern)}
    {qs : List (α × Checked)}
    {s s' : Progress}
    (h : AcceptsAll ctx parts s qs s') :
    ∀ i ∈ qs, i.2.Regular := by
  match h with
  | .nil _ => exact nofun
  | .cons hHead hTail =>
      exact List.forall_mem_cons.mpr ⟨hHead.regular, hTail.regular⟩
termination_by structural h

theorem AcceptsBranches.regular
    {ctx : CheckContext}
    {id : SchemaId}
    {before : List Binding}
    {ps : List Pattern}
    {branches : List (Checked × List Binding)}
    {r r' : Registry}
    (h : AcceptsBranches ctx id before ps r branches r') :
    ∀ b ∈ branches, b.1.Regular := by
  match h with
  | .nil _ _ _ => exact nofun
  | .cons hHead hTail =>
      exact List.forall_mem_cons.mpr ⟨hHead.regular, hTail.regular⟩
termination_by structural h

theorem AcceptsSpread.regular
    {ctx : CheckContext}
    {element : SchemaId}
    {p : Option Pattern}
    {s s' : Progress}
    {q : Option Checked}
    (h : AcceptsSpread ctx element p s q s') :
    ∀ q' ∈ q, q'.Regular := by
  match h with
  | .none _ _ => exact nofun
  | .some hInner =>
      rintro q' ⟨⟩
      exact hInner.regular
termination_by structural h

end

end MatchCompiler

------------------------------------------------------------
-- Names Of Accepted Patterns
------------------------------------------------------------

namespace MatchCompiler

/-
  Names are added to those bound before, in some order, and
  no name is bound twice.
-/
structure Progress.Adds
    (s s' : Progress)
    (names : List String) : Prop where
  added :
    ∃ new, s'.bindings = s.bindings ++ new ∧
      (new.map Binding.name).Perm names
  nodup : s.names.Nodup → s'.names.Nodup

namespace Progress.Adds

variable {s s' s'' : Progress}
variable {names names' : List String}

theorem nil
    (h : s'.bindings = s.bindings) :
    s.Adds s' [] := by
  refine ⟨⟨[], by rw [h, List.append_nil], .refl _⟩, ?_⟩
  unfold Progress.names
  rw [h]
  exact id

theorem append
    (h : s.Adds s' names)
    (h' : s'.Adds s'' names') :
    s.Adds s'' (names ++ names') := by
  rcases h.added with ⟨new, hNew, hPerm⟩
  rcases h'.added with ⟨new', hNew', hPerm'⟩
  refine ⟨⟨new ++ new', ?_, ?_⟩, h'.nodup ∘ h.nodup⟩
  · rw [hNew', hNew, List.append_assoc]
  · rw [List.map_append]
    exact hPerm.append hPerm'

/- One more name that is new. -/
theorem add
    (h : s.Adds s' names)
    {b : Binding}
    (hFresh : b.name ∉ s'.names) :
    s.Adds (s'.add b) (b.name :: names) := by
  rcases h.added with ⟨new, hNew, hPerm⟩
  refine ⟨⟨new ++ [b], ?_, ?_⟩, ?_⟩
  · change s'.bindings ++ [b] = _
    rw [hNew, List.append_assoc]
  · rw [List.map_append]
    exact (List.perm_append_singleton _ _).trans (hPerm.cons _)
  · intro hNodup
    change ((s'.bindings ++ [b]).map Binding.name).Nodup
    rw [List.map_append]
    refine List.nodup_append.mpr
      ⟨h.nodup hNodup, by simp, ?_⟩
    intro x hx y hy hEq
    rw [List.map_singleton, List.mem_singleton] at hy
    exact hFresh (hy ▸ hEq ▸ hx)

/- The names that are added differ from one another. -/
theorem nodup_names
    (h : s.Adds s' names)
    (hNodup : s.names.Nodup) :
    names.Nodup := by
  rcases h.added with ⟨new, hNew, hPerm⟩
  have hAll := h.nodup hNodup
  unfold Progress.names at hAll
  rw [hNew, List.map_append, List.nodup_append] at hAll
  exact hPerm.nodup_iff.mp hAll.2.1

/- The names of the bindings that are added. -/
theorem perm_names
    {new : List Binding}
    (h : s.Adds s' names)
    (hNew : s'.bindings = s.bindings ++ new) :
    (new.map Binding.name).Perm names := by
  rcases h.added with ⟨new', hNew', hPerm⟩
  rw [hNew, List.append_cancel_left_eq] at hNew'
  rwa [hNew']

/- The names that are bound then. -/
theorem mem_names
    (h : s.Adds s' names)
    {x : String} :
    x ∈ s'.names ↔ x ∈ s.names ∨ x ∈ names := by
  rcases h.added with ⟨new, hNew, hPerm⟩
  unfold Progress.names
  rw [hNew, List.map_append, List.mem_append, hPerm.mem_iff]

theorem subset
    (h : s.Adds s' names) :
    s.names ⊆ s'.names :=
  fun _ hx => h.mem_names.mpr (.inl hx)

theorem subset_append
    (h : s.Adds s' names) :
    s'.names ⊆ s.names ++ names :=
  fun _ hx => List.mem_append.mpr (h.mem_names.mp hx)

end Progress.Adds

/- Resolving a head adds no names. -/
theorem HeadMeans.adds
    {ctx : CheckContext}
    {scrutinee : SchemaId}
    {h : ConstructorHead}
    {resolved : ResolvedHead}
    {s s' : Progress}
    (hHead : HeadMeans ctx scrutinee h s resolved s') :
    s.Adds s' [] := by
  cases hHead <;> exact .nil rfl

/- A type test binds no names. -/
theorem TypeTested.names_plan
    {ctx : CheckContext}
    {span : Span}
    {scrutinee : SchemaId}
    {id : DescriptorId}
    {s : Progress}
    {q : Checked}
    (h : TypeTested ctx span scrutinee id s q)
    (o : LoweringOptions)
    (inside : Bool)
    (a : Access) :
    (q.plan o inside a).names = [] := by
  cases h <;> rfl

/- A regular sequence pattern has an access for each part. -/
theorem Checked.Regular.seqAccesses
    {span : Span}
    {l : SeqLayout}
    {fixed : Option Nat}
    {items : List Checked}
    {spread : Option Checked}
    (h : Checked.Regular (.seq span l fixed items spread))
    (a : Access) :
    ∃ length slots slice,
      Lowered.seqAccesses l a fixed =
        Option.some (length, slots, slice) ∧
      items.length ≤ slots.length ∧
      (spread.isSome → slice.isSome) := by
  cases h with
  | seq _ _ _ hSlots hSpreadAt hFixed =>
      rcases Lowered.exists_seqAccesses hFixed a with
        ⟨length, slots, slice, hAcc, hLength, hSlice⟩
      refine ⟨length, slots, slice, hAcc, ?_, ?_⟩
      · rw [hSlots, hLength]
      · rw [hSlice]
        exact hSpreadAt

mutual

/- An accepted pattern adds the names of its plan. -/
theorem Accepts.adds
    {ctx : CheckContext}
    {p : Pattern}
    {id : SchemaId}
    {s s' : Progress}
    {q : Checked}
    (h : Accepts ctx p id s q s')
    (o : LoweringOptions)
    (inside : Bool)
    (a : Access) :
    s.Adds s' (q.plan o inside a).names := by
  match h with
  | .wildcard _ _ _ => exact .nil rfl
  | .bind _ _ hFresh =>
      have hSame : s.Adds s [] := .nil rfl
      exact hSame.add hFresh
  | .named hInner hFresh =>
      exact (hInner.adds o inside a).add hFresh
  | .literal _ => exact .nil rfl
  | @Accepts.alt _ _ _ _ _ branches _ hBranches _ =>
      have hAll := hBranches.adds o a
      cases branches with
      | nil => exact .nil (List.append_nil _)
      | cons b bs => exact hAll b List.mem_cons_self
  | .guarded hInner _ =>
      have hAdds := hInner.adds o inside a
      cases inside with
      | false => exact hAdds
      | true =>
          have hNames := hAdds.append (.nil rfl)
          exact hNames
  | .some _ _ hInner =>
      have hAdds := hInner.adds o inside (.payload a)
      exact hAdds.append (.nil rfl)
  | .someUnknown _ => exact .nil rfl
  | .none _ => exact .nil rfl
  | .object _ hHead _ _ hDisc hRest =>
      have hOwn := hDisc.adds o inside (fun _ => [])
        (fun f => .field a f.name) _ rfl
      have hOthers := hRest.adds o inside (fun _ => [])
        (fun f => .field a f.name) _ rfl
      have hNames := hHead.adds.append (hOwn.append hOthers)
      simp only [Checked.plan, Plan.names, Plan.namesOfAll_append,
        Plan.namesOfAll_tests, Checked.planFields_eq,
        Checked.planParts_append]
      exact hNames
  | @Accepts.seq _ span _ _ _ _ _ _ _ _ hOne hKind hElement hDefaults
      hFixed hItems hSpread =>
      have hRegular :=
        (@Accepts.seq _ span _ _ _ _ _ _ _ _ hOne hKind hElement
          hDefaults hFixed hItems hSpread).regular
      rcases hRegular.seqAccesses a with
        ⟨length, slots, slice, hAcc, hLength, hSlice⟩
      have hSlots := hItems.adds o inside (fun _ => []) (fun b => b)
        _ (List.map_snd_zip hLength)
      have hNames := hSlots.append (hSpread.adds o inside hSlice)
      simp only [Checked.plan, hAcc, Plan.names,
        Plan.namesOfAll_append, Plan.namesOfAll_tests,
        Checked.planSlots_eq]
      exact hNames
  | .tuple _ hItems =>
      have hNames := hItems.adds o inside (fun _ => [])
        (fun i => .index a (.fromStart i)) _ rfl
      simp only [Checked.plan, Plan.names, Checked.planTuple_eq]
      exact hNames
  | .typeTest hTested =>
      rw [hTested.names_plan]
      exact .nil rfl
  | @Accepts.narrow _ _ _ target _ _ _ hTested hFresh =>
      have hSame : s.Adds (s.extract ctx target).1 [] := .nil rfl
      simp only [Checked.plan, Plan.names, hTested.names_plan]
      exact hSame.add hFresh
  | .map _ _ hEntries =>
      have hNames := hEntries.adds o inside
        (fun key => [.hasKey a key]) (fun key => .mapValue a key) _ rfl
      simp only [Checked.plan, Plan.names, Checked.planEntries_eq]
      exact hNames
  | .set _ _ _ => exact .nil rfl
termination_by structural h

theorem AcceptsAll.adds
    {ctx : CheckContext}
    {α β : Type}
    {parts : List (α × SchemaId × Pattern)}
    {qs : List (α × Checked)}
    {s s' : Progress}
    (h : AcceptsAll ctx parts s qs s')
    (o : LoweringOptions)
    (inside : Bool)
    (tests : β → List Test)
    (access : β → Access)
    (labelled : List (β × Checked))
    (hSame : labelled.map Prod.snd = qs.map Prod.snd) :
    s.Adds s'
      (Plan.namesOfAll
        (Checked.planParts o inside tests access labelled)) := by
  match h with
  | .nil _ =>
      rw [List.map_nil, List.map_eq_nil_iff] at hSame
      subst hSame
      exact .nil rfl
  | .cons hHead hTail =>
      have hFirst := hHead.adds o inside
      have hRest (labelled : List (β × Checked)) hSame :=
        hTail.adds o inside tests access labelled hSame
      match labelled, hSame with
      | i :: labelled, hSame =>
          rcases List.cons.inj hSame with ⟨rfl, hOthers⟩
          rw [Checked.names_planParts_cons]
          exact (hFirst (access i.1)).append (hRest labelled hOthers)
termination_by structural h

theorem AcceptsBranches.adds
    {ctx : CheckContext}
    {id : SchemaId}
    {before : List Binding}
    {ps : List Pattern}
    {branches : List (Checked × List Binding)}
    {r r' : Registry}
    (h : AcceptsBranches ctx id before ps r branches r')
    (o : LoweringOptions)
    (a : Access) :
    ∀ b ∈ branches,
      Progress.Adds ⟨r, before⟩ ⟨r', before ++ b.2⟩
        (b.1.plan o true a).names := by
  match h with
  | .nil _ _ _ => exact nofun
  | .cons hHead hTail =>
      refine List.forall_mem_cons.mpr ⟨?_, fun b hb => ?_⟩
      · have hAdds := hHead.adds o true a
        exact ⟨hAdds.added, hAdds.nodup⟩
      · have hAdds := hTail.adds o a b hb
        exact ⟨hAdds.added, hAdds.nodup⟩
termination_by structural h

theorem AcceptsSpread.adds
    {ctx : CheckContext}
    {element : SchemaId}
    {p : Option Pattern}
    {s s' : Progress}
    {q : Option Checked}
    (h : AcceptsSpread ctx element p s q s')
    (o : LoweringOptions)
    (inside : Bool)
    {slice : Option Access}
    (hSlice : q.isSome → slice.isSome) :
    s.Adds s' (Plan.namesOfAll (Checked.planSpread o inside q slice)) := by
  match h with
  | .none _ _ => exact .nil rfl
  | .some hInner =>
      rcases Option.isSome_iff_exists.mp (hSlice rfl) with ⟨a, rfl⟩
      have hAdds := hInner.adds o inside a
      simp only [Checked.planSpread, Plan.namesOfAll, List.append_nil]
      exact ⟨hAdds.added, hAdds.nodup⟩

end

end MatchCompiler

------------------------------------------------------------
-- Uniform Plans
------------------------------------------------------------

namespace MatchCompiler

/- The test is a leaf that does not depend on choices. -/
structure Test.Plain (t : Test) : Prop where
  leaf : t.IsLeaf
  steady : ∀ root c d, t.reading root c = t.reading root d

namespace Test

theorem plain_always :
    Plain .always :=
  ⟨trivial, fun _ _ _ => rfl⟩

variable {a : Access}

/- A test of a plain access is plain. -/
theorem plain_ask
    {t : Test}
    {question : Value → Except ShapeMismatch Bool}
    (hLeaf : t.IsLeaf)
    (hQuery : t.query = some (a, question))
    (ha : a.Plain) :
    t.Plain := by
  refine ⟨hLeaf, fun root c d => ?_⟩
  simp only [reading, hQuery, ha.steady root c d]

/- A test that reads a plain access is plain. -/
theorem Reads.plain
    {t : Test}
    (h : t.Reads Access.Plain) :
    t.Plain := by
  rcases h with ⟨a, question, hQuery, ha⟩
  exact plain_ask (isLeaf_of_query hQuery) hQuery ha

end Test

namespace Plan

/- A plain test is uniform. -/
theorem uniform_test
    {t : Test}
    (h : t.Plain) :
    Uniform (.test t) :=
  .test h.leaf h.steady

/- Parts after plain tests are uniform together. -/
theorem uniform_tests_append
    {ts : List Test}
    {ps : List Plan}
    (hTests : ∀ t ∈ ts, t.Plain)
    (hParts : ∀ p ∈ ps, Uniform p) :
    ∀ p ∈ ts.map Plan.test ++ ps, Uniform p := by
  intro p hp
  rcases List.mem_append.mp hp with hp | hp
  · rcases List.mem_map.mp hp with ⟨t, ht, rfl⟩
    exact uniform_test (hTests t ht)
  · exact hParts p hp

end Plan

theorem TypeTested.uniform
    {ctx : CheckContext}
    {span : Span}
    {scrutinee : SchemaId}
    {id : DescriptorId}
    {s : Progress}
    {q : Checked}
    (h : TypeTested ctx span scrutinee id s q)
    (o : LoweringOptions)
    (inside : Bool)
    {a : Access}
    (ha : a.Plain) :
    (q.plan o inside a).Uniform := by
  cases h with
  | holds => exact Plan.uniform_test Test.plain_always
  | tested => exact Plan.uniform_test (Test.plain_ask trivial rfl ha)

mutual

/- The plan of an accepted pattern is uniform. -/
theorem Accepts.uniform
    {ctx : CheckContext}
    {p : Pattern}
    {id : SchemaId}
    {s s' : Progress}
    {q : Checked}
    (h : Accepts ctx p id s q s')
    (hNodup : s.names.Nodup)
    (o : LoweringOptions)
    (inside : Bool)
    {a : Access}
    (ha : a.Plain) :
    (q.plan o inside a).Uniform := by
  match h with
  | .wildcard _ _ _ => exact Plan.uniform_test Test.plain_always
  | .bind _ _ _ => exact .bind _ ha (Plan.uniform_test Test.plain_always)
  | .named hInner _ =>
      exact .bind _ ha (hInner.uniform hNodup o inside ha)
  | .literal _ => exact Plan.uniform_test (Test.reads_literal ha _).plain
  | @Accepts.alt _ _ _ _ _ branches _ hBranches hAlike =>
      have hUniform := hBranches.uniform hNodup o ha
      have hAdds := hBranches.adds o a
      simp only [Checked.plan, Checked.planBranches_eq, List.map_map]
      refine .alt ?_ ?_ ?_
      · intro p hp
        rcases List.mem_map.mp hp with ⟨b, hb, rfl⟩
        exact hUniform b hb
      · intro p hp
        rcases List.mem_map.mp hp with ⟨b, hb, rfl⟩
        exact (hAdds b hb).nodup_names hNodup
      · intro p hp p' hp'
        rcases List.mem_map.mp hp with ⟨b, hb, rfl⟩
        rcases List.mem_map.mp hp' with ⟨b', hb', rfl⟩
        have hFirst := (hAdds b hb).perm_names rfl
        have hSecond := (hAdds b' hb').perm_names rfl
        have hSub := List.Subset.trans hFirst.symm.subset
          (hAlike b hb b' hb')
        exact List.Subset.trans hSub hSecond.subset
  | .guarded hInner _ =>
      have hUniform := hInner.uniform hNodup o inside ha
      cases inside with
      | false => exact hUniform
      | true =>
          refine .all (List.forall_mem_cons.mpr ⟨hUniform, ?_⟩)
          exact List.forall_mem_singleton.mpr (.guard _)
  | .some _ _ hInner =>
      have hUniform := hInner.uniform hNodup o inside ha.payload
      refine .all (List.forall_mem_cons.mpr ⟨?_, ?_⟩)
      · exact Plan.uniform_test (Test.plain_ask trivial rfl ha)
      · exact List.forall_mem_singleton.mpr hUniform
  | .someUnknown _ =>
      refine .all (List.forall_mem_cons.mpr ⟨?_, ?_⟩)
      · exact Plan.uniform_test (Test.plain_ask trivial rfl ha)
      · exact List.forall_mem_singleton.mpr
          (Plan.uniform_test Test.plain_always)
  | .none _ => exact Plan.uniform_test (Test.reads_literal ha _).plain
  | .object _ hHead _ _ hDisc hRest =>
      have hNodup₁ := hHead.adds.nodup hNodup
      have hNodup₂ :=
        (hDisc.adds o inside (fun _ => []) (fun f => .field a f.name) _
          rfl).nodup hNodup₁
      have hOwn := hDisc.uniform hNodup₁ o inside (fun _ => [])
        (fun f => .field a f.name) _ rfl (fun _ _ => nofun)
        (fun f _ => ha.field f.1.name)
      have hOthers := hRest.uniform hNodup₂ o inside (fun _ => [])
        (fun f => .field a f.name) _ rfl (fun _ _ => nofun)
        (fun f _ => ha.field f.1.name)
      simp only [Checked.plan, Checked.planFields_eq,
        Checked.planParts_append]
      refine .all (Plan.uniform_tests_append
        (fun t ht =>
          (Test.reads_objectTests Access.paths_plain ha _ t ht).plain)
        ?_)
      exact List.forall_mem_append.mpr ⟨hOwn, hOthers⟩
  | @Accepts.seq _ span _ _ _ _ _ _ _ _ hOne hKind hElement hDefaults
      hFixed hItems hSpread =>
      have hRegular :=
        (@Accepts.seq _ span _ _ _ _ _ _ _ _ hOne hKind hElement
          hDefaults hFixed hItems hSpread).regular
      rcases hRegular.seqAccesses a with
        ⟨length, slots, slice, hAcc, hLength, hSlice⟩
      rcases Lowered.paths_seqAccesses Access.paths_plain ha hAcc with
        ⟨hSlots, hPlain⟩
      have hZip := List.map_snd_zip hLength
      have hNodup₁ :=
        (hItems.adds o inside (fun _ => []) (fun b => b) _ hZip).nodup
          hNodup
      have hOwn := hItems.uniform hNodup o inside (fun _ => [])
        (fun b => b) _ hZip (fun _ _ => nofun)
        (fun b hb => hSlots b.1 (List.of_mem_zip hb).1)
      simp only [Checked.plan, hAcc, Checked.planSlots_eq]
      refine .all (Plan.uniform_tests_append
        (fun t ht => (Test.reads_lengthTest ha hAcc t ht).plain) ?_)
      exact List.forall_mem_append.mpr
        ⟨hOwn, hSpread.uniform hNodup₁ o inside hPlain⟩
  | .tuple _ hItems =>
      have hParts := hItems.uniform hNodup o inside (fun _ => [])
        (fun i => .index a (.fromStart i)) _ rfl (fun _ _ => nofun)
        (fun i _ => ha.index _)
      simp only [Checked.plan, Checked.planTuple_eq]
      exact .all hParts
  | .typeTest hTested => exact hTested.uniform o inside ha
  | .narrow hTested _ =>
      exact .bind _ ha (hTested.uniform o inside ha)
  | .map _ _ hEntries =>
      have hParts := hEntries.uniform hNodup o inside
        (fun key => [.hasKey a key]) (fun key => .mapValue a key) _ rfl
        (fun i _ => List.forall_mem_singleton.mpr
          (Test.plain_ask trivial rfl ha))
        (fun i _ => ha.mapValue i.1)
      simp only [Checked.plan, Checked.planEntries_eq]
      exact .all hParts
  | .set _ _ _ => exact Plan.uniform_test (Test.reads_set ha o _).plain
termination_by structural h

theorem AcceptsAll.uniform
    {ctx : CheckContext}
    {α β : Type}
    {parts : List (α × SchemaId × Pattern)}
    {qs : List (α × Checked)}
    {s s' : Progress}
    (h : AcceptsAll ctx parts s qs s')
    (hNodup : s.names.Nodup)
    (o : LoweringOptions)
    (inside : Bool)
    (tests : β → List Test)
    (access : β → Access)
    (labelled : List (β × Checked))
    (hSame : labelled.map Prod.snd = qs.map Prod.snd)
    (hTests : ∀ i ∈ labelled, ∀ t ∈ tests i.1, t.Plain)
    (hAccess : ∀ i ∈ labelled, (access i.1).Plain) :
    ∀ p ∈ Checked.planParts o inside tests access labelled,
      p.Uniform := by
  match h with
  | .nil _ =>
      rw [List.map_nil, List.map_eq_nil_iff] at hSame
      subst hSame
      exact nofun
  | .cons hHead hTail =>
      have hFirst {a : Access} (ha : a.Plain) :=
        hHead.uniform hNodup o inside ha
      have hRest (labelled : List (β × Checked)) hSame :=
        hTail.uniform ((hHead.adds o inside .scrutinee).nodup hNodup) o
          inside tests access labelled hSame
      match labelled, hSame with
      | i :: labelled, hSame =>
          rcases List.cons.inj hSame with ⟨rfl, hOthers⟩
          rcases List.forall_mem_cons.mp hTests with ⟨hTest, hTests⟩
          rcases List.forall_mem_cons.mp hAccess with ⟨ha, hAccess⟩
          rw [Checked.planParts_cons, List.append_assoc]
          refine Plan.uniform_tests_append hTest ?_
          refine List.forall_mem_cons.mpr ⟨hFirst ha, ?_⟩
          exact hRest labelled hOthers hTests hAccess
termination_by structural h

theorem AcceptsBranches.uniform
    {ctx : CheckContext}
    {id : SchemaId}
    {before : List Binding}
    {ps : List Pattern}
    {branches : List (Checked × List Binding)}
    {r r' : Registry}
    (h : AcceptsBranches ctx id before ps r branches r')
    (hNodup : (before.map Binding.name).Nodup)
    (o : LoweringOptions)
    {a : Access}
    (ha : a.Plain) :
    ∀ b ∈ branches, (b.1.plan o true a).Uniform := by
  match h with
  | .nil _ _ _ => exact nofun
  | .cons hHead hTail =>
      exact List.forall_mem_cons.mpr
        ⟨hHead.uniform hNodup o true ha, hTail.uniform hNodup o ha⟩
termination_by structural h

theorem AcceptsSpread.uniform
    {ctx : CheckContext}
    {element : SchemaId}
    {p : Option Pattern}
    {s s' : Progress}
    {q : Option Checked}
    (h : AcceptsSpread ctx element p s q s')
    (hNodup : s.names.Nodup)
    (o : LoweringOptions)
    (inside : Bool)
    {slice : Option Access}
    (ha : ∀ a ∈ slice, a.Plain) :
    ∀ p ∈ Checked.planSpread o inside q slice, p.Uniform := by
  match h with
  | .none _ _ => exact nofun
  | .some hInner =>
      have hUniform {a : Access} (ha : a.Plain) :=
        hInner.uniform hNodup o inside ha
      cases slice with
      | none => exact nofun
      | some a =>
          exact List.forall_mem_singleton.mpr (hUniform (ha a rfl))

end

end MatchCompiler
