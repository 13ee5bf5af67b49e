import MatchCompiler.Proofs.Names

/-
  This file shows that guards use bound names.

  A guard of an accepted pattern is asked where all names
  that it uses are bound: inside an alternation right after
  what it guards, and otherwise after the whole pattern.

  Key definitions include:
    * `Guard.Known`
    * `Plan.Scoped`
    * `CheckedArm.AcceptedFrom`

  Key theorems include:
    * `Accepts.scoped`
    * `CheckedArm.AcceptedFrom.uniform`
    * `CheckedArm.AcceptedFrom.scoped`
-/

------------------------------------------------------------
-- Guards Of Parts
------------------------------------------------------------

namespace MatchCompiler

namespace Pattern

theorem guardsOfList_eq
    (ps : List Pattern) :
    guardsOfList ps = ps.flatMap guards := by
  induction ps with
  | nil => rfl
  | cons p ps ih => rw [guardsOfList, ih, List.flatMap_cons]

theorem guardsOfFields_eq
    (fs : List (FieldName × Pattern)) :
    guardsOfFields fs = fs.flatMap (fun f => f.2.guards) := by
  induction fs with
  | nil => rfl
  | cons f fs ih => rw [guardsOfFields, ih, List.flatMap_cons]

theorem guardsOfEntries_eq
    (es : List (Literal × Pattern)) :
    guardsOfEntries es = es.flatMap (fun e => e.2.guards) := by
  induction es with
  | nil => rfl
  | cons e es ih => rw [guardsOfEntries, ih, List.flatMap_cons]

theorem guardsOfElements_eq
    (es : List (SeqElement Pattern)) :
    guardsOfElements es =
      (es.filterMap SeqElement.pattern?).flatMap guards := by
  induction es with
  | nil => rfl
  | cons e es ih =>
      match e with
      | .item p d => exact congrArg (p.guards ++ ·) ih
      | .spread none span => exact ih
      | .spread (some p) span => exact congrArg (p.guards ++ ·) ih

theorem mem_guardsOfList
    {ps : List Pattern}
    {p : Pattern}
    {g : Guard}
    (hp : p ∈ ps)
    (hg : g ∈ p.guards) :
    g ∈ guardsOfList ps := by
  rw [guardsOfList_eq]
  exact List.mem_flatMap_of_mem hp hg

theorem mem_guardsOfFields
    {fs : List (FieldName × Pattern)}
    {f : FieldName × Pattern}
    {g : Guard}
    (hf : f ∈ fs)
    (hg : g ∈ f.2.guards) :
    g ∈ guardsOfFields fs := by
  rw [guardsOfFields_eq]
  exact List.mem_flatMap_of_mem hf hg

theorem mem_guardsOfEntries
    {es : List (Literal × Pattern)}
    {e : Literal × Pattern}
    {g : Guard}
    (he : e ∈ es)
    (hg : g ∈ e.2.guards) :
    g ∈ guardsOfEntries es := by
  rw [guardsOfEntries_eq]
  exact List.mem_flatMap_of_mem he hg

theorem mem_guardsOfElements
    {es : List (SeqElement Pattern)}
    {e : SeqElement Pattern}
    {p : Pattern}
    {g : Guard}
    (he : e ∈ es)
    (hp : e.pattern? = some p)
    (hg : g ∈ p.guards) :
    g ∈ guardsOfElements es := by
  rw [guardsOfElements_eq]
  exact List.mem_flatMap_of_mem (List.mem_filterMap.mpr ⟨e, he, hp⟩) hg

end Pattern

/- Parts of a constructor pattern are given in its fields. -/
theorem Schema.exists_of_mem_discriminatorParts
    {t : Schema}
    {fs : List (FieldName × Pattern)}
    {part : FieldRead × SchemaId × Pattern}
    (h : part ∈ t.discriminatorParts fs) :
    ∃ f ∈ fs, f.2 = part.2.2 ∧ t.isDiscriminator f.1.name = true := by
  unfold discriminatorParts at h
  split at h
  · cases h
  · rename_i d hDisc
    split at h
    · cases h
    · rename_i hFind
      rw [List.mem_singleton] at h
      subst h
      have hName := List.find?_some hFind
      refine ⟨_, List.mem_of_find?_eq_some hFind, rfl, ?_⟩
      unfold isDiscriminator
      rw [hDisc, Option.any_some, beq_iff_eq]
      exact (beq_iff_eq.mp hName).symm

theorem Schema.exists_of_mem_namedParts
    {t : Schema}
    {pinned : Option (List Member)}
    {fs : List (FieldName × Pattern)}
    {part : FieldRead × SchemaId × Pattern}
    (h : part ∈ t.namedParts pinned fs) :
    ∃ f ∈ fs, f.2 = part.2.2 ∧ t.isDiscriminator f.1.name = false := by
  rcases List.mem_filterMap.mp h with ⟨f, hf, hPart⟩
  unfold namedPart? at hPart
  split at hPart
  · cases hPart
  · rename_i hOther
    split at hPart
    · cases hPart
      exact ⟨f, hf, rfl, Bool.eq_false_of_not_eq_true hOther⟩
    · cases hPart

theorem Schema.mem_of_mem_unnamedParts
    {t : Schema}
    {pinned : Option (List Member)}
    {args : List Pattern}
    {part : FieldRead × SchemaId × Pattern}
    (h : part ∈ t.unnamedParts pinned args) :
    part.2.2 ∈ args := by
  unfold unnamedParts at h
  rw [← List.map_uncurry_zip_eq_zipWith] at h
  rcases List.mem_map.mp h with ⟨⟨p, f⟩, hMem, rfl⟩
  exact (List.of_mem_zip hMem).1

/- The guards of a discriminator's part are among those given. -/
theorem Schema.mem_guards_of_discriminatorParts
    {t : Schema}
    {fs : List (FieldName × Pattern)}
    {part : FieldRead × SchemaId × Pattern}
    (h : part ∈ t.discriminatorParts fs)
    {g : Guard}
    (hg : g ∈ part.2.2.guards) :
    g ∈ Pattern.guardsOfFields fs := by
  rcases exists_of_mem_discriminatorParts h with ⟨f, hf, hEq, -⟩
  rw [← hEq] at hg
  exact Pattern.mem_guardsOfFields hf hg

theorem Schema.mem_guards_of_parts
    {t : Schema}
    {pinned : Option (List Member)}
    {fs : List (FieldName × Pattern)}
    {args : List Pattern}
    {part : FieldRead × SchemaId × Pattern}
    (h : part ∈ t.namedParts pinned fs ++ t.unnamedParts pinned args)
    {g : Guard}
    (hg : g ∈ part.2.2.guards) :
    g ∈ Pattern.guardsOfFields fs ++ Pattern.guardsOfList args := by
  rcases List.mem_append.mp h with h | h
  · rcases exists_of_mem_namedParts h with ⟨f, hf, hEq, -⟩
    rw [← hEq] at hg
    exact List.mem_append_left _ (Pattern.mem_guardsOfFields hf hg)
  · exact List.mem_append_right _
      (Pattern.mem_guardsOfList (mem_of_mem_unnamedParts h) hg)

namespace SeqElement

theorem exists_of_mem_itemParts
    {element : SchemaId}
    {es : List (SeqElement Pattern)}
    {part : Option Literal × SchemaId × Pattern}
    (h : part ∈ itemParts element es) :
    .item part.2.2 part.1 ∈ es ∧ part.2.1 = element := by
  rcases List.mem_filterMap.mp h with ⟨e, he, hPart⟩
  match e, hPart with
  | .item p d, hPart =>
      cases hPart
      exact ⟨he, rfl⟩

theorem exists_of_mem_tupleParts
    {es : List (SeqElement Pattern)}
    {fields : List Field}
    {part : Nat × SchemaId × Pattern}
    (h : part ∈ tupleParts es fields) :
    ∃ e ∈ es, e.pattern? = some part.2.2 := by
  rcases List.mem_filterMap.mp h with ⟨⟨e, f⟩, he, hPart⟩
  have hMem := (List.of_mem_zip he).1
  match e, hPart, hMem with
  | .item p d, hPart, hMem =>
      cases hPart
      exact ⟨_, hMem, rfl⟩

theorem exists_of_spreadPattern?
    {es : List (SeqElement Pattern)}
    {p : Pattern}
    (h : spreadPattern? es = some p) :
    ∃ e ∈ es, e.pattern? = some p := by
  rcases List.exists_of_findSome?_eq_some h with ⟨e, he, hPattern⟩
  match e, hPattern, he with
  | .spread q span, hPattern, he => exact ⟨_, he, hPattern⟩

theorem mem_guards_of_itemParts
    {element : SchemaId}
    {es : List (SeqElement Pattern)}
    {part : Option Literal × SchemaId × Pattern}
    (h : part ∈ itemParts element es)
    {g : Guard}
    (hg : g ∈ part.2.2.guards) :
    g ∈ Pattern.guardsOfElements es :=
  Pattern.mem_guardsOfElements (exists_of_mem_itemParts h).1 rfl hg

theorem mem_guards_of_tupleParts
    {es : List (SeqElement Pattern)}
    {fields : List Field}
    {part : Nat × SchemaId × Pattern}
    (h : part ∈ tupleParts es fields)
    {g : Guard}
    (hg : g ∈ part.2.2.guards) :
    g ∈ Pattern.guardsOfElements es := by
  rcases exists_of_mem_tupleParts h with ⟨e, he, hp⟩
  exact Pattern.mem_guardsOfElements he hp hg

theorem mem_guards_of_spreadPattern?
    {es : List (SeqElement Pattern)}
    {p : Pattern}
    (h : spreadPattern? es = some p)
    {g : Guard}
    (hg : g ∈ p.guards) :
    g ∈ Pattern.guardsOfElements es := by
  rcases exists_of_spreadPattern? h with ⟨e, he, hp⟩
  exact Pattern.mem_guardsOfElements he hp hg

end SeqElement

end MatchCompiler

------------------------------------------------------------
-- Scoped Plans
------------------------------------------------------------

namespace MatchCompiler

/- A guard among some conditions uses names that are bound. -/
def Guard.Known
    (G : Guard → Prop)
    (names : List String)
    (id : GuardId) : Prop :=
  ∃ g, G g ∧ g.id = id ∧ g.uses ⊆ names

theorem Guard.Known.mono
    {G : Guard → Prop}
    {names names' : List String}
    {id : GuardId}
    (h : Guard.Known G names id)
    (hSub : names ⊆ names') :
    Guard.Known G names' id := by
  rcases h with ⟨g, hg, hId, hUses⟩
  exact ⟨g, hg, hId, List.Subset.trans hUses hSub⟩

namespace Plan

mutual

/-
  Each guard is asked for one of some conditions whose names
  are bound then; the names bound before are given.
-/
def Scoped
    (G : Guard → Prop) : Plan → List String → Prop
| .test (.guard id) => fun names => Guard.Known G names id
| .test _ => fun _ => True
| .bind _ _ p => fun names => p.Scoped G names
| .alt ps => fun names => ScopedEach G ps names
| .all ps => fun names => ScopedInTurn G ps names
termination_by structural p => p

/- The same for branches. -/
def ScopedEach
    (G : Guard → Prop) : List Plan → List String → Prop
| [] => fun _ => True
| p :: ps => fun names => p.Scoped G names ∧ ScopedEach G ps names
termination_by structural ps => ps

/- The same for parts in order. -/
def ScopedInTurn
    (G : Guard → Prop) : List Plan → List String → Prop
| [] => fun _ => True
| p :: ps => fun names =>
    p.Scoped G names ∧ ScopedInTurn G ps (names ++ p.names)
termination_by structural ps => ps

end

variable {G : Guard → Prop}

/- More names may be bound before. -/
theorem Scoped.mono
    {p : Plan}
    {names names' : List String}
    (h : p.Scoped G names)
    (hSub : names ⊆ names') :
    p.Scoped G names' := by
  induction p using partInduction generalizing names names' with
  | test t =>
      cases t with
      | guard id => exact Guard.Known.mono h hSub
      | _ => trivial
  | bind x a p ih => exact ih h hSub
  | alt ps ih =>
      change ScopedEach G ps names at h
      change ScopedEach G ps names'
      induction ps with
      | nil => trivial
      | cons p ps ihs =>
          rcases List.forall_mem_cons.mp ih with ⟨hHead, hTail⟩
          exact ⟨hHead h.1 hSub, ihs hTail h.2⟩
  | all ps ih =>
      change ScopedInTurn G ps names at h
      change ScopedInTurn G ps names'
      induction ps generalizing names names' with
      | nil => trivial
      | cons p ps ihs =>
          rcases List.forall_mem_cons.mp ih with ⟨hHead, hTail⟩
          refine ⟨hHead h.1 hSub, ihs hTail ?_ h.2⟩
          exact List.append_subset.mpr
            ⟨List.subset_append_of_subset_left _ hSub,
              List.subset_append_right _ _⟩

/- More names may be bound before parts. -/
theorem scopedInTurn_mono
    {ps : List Plan}
    {names names' : List String}
    (h : ScopedInTurn G ps names)
    (hSub : names ⊆ names') :
    ScopedInTurn G ps names' :=
  Scoped.mono (p := .all ps) h hSub

/- Parts in two groups. -/
theorem scopedInTurn_append
    {ps qs : List Plan}
    {names : List String}
    (hFirst : ScopedInTurn G ps names)
    (hSecond : ScopedInTurn G qs (names ++ namesOfAll ps)) :
    ScopedInTurn G (ps ++ qs) names := by
  induction ps generalizing names with
  | nil =>
      rw [namesOfAll, List.append_nil] at hSecond
      exact hSecond
  | cons p ps ih =>
      refine ⟨hFirst.1, ih hFirst.2 ?_⟩
      rwa [List.append_assoc]

theorem scopedEach_iff
    {ps : List Plan}
    {names : List String} :
    ScopedEach G ps names ↔ ∀ p ∈ ps, p.Scoped G names := by
  induction ps with
  | nil => exact ⟨fun _ => List.forall_mem_nil _, fun _ => trivial⟩
  | cons p ps ih =>
      rw [List.forall_mem_cons, ← ih]
      rfl

/- A test that asks no guard is scoped. -/
theorem scoped_test
    {t : Test}
    (h : t.Plain)
    (names : List String) :
    (Plan.test t).Scoped G names := by
  cases t <;> first | exact h.leaf.elim | trivial

/- Tests that ask no guard are scoped. -/
theorem scopedInTurn_tests
    {ts : List Test}
    (h : ∀ t ∈ ts, t.Plain)
    (names : List String) :
    ScopedInTurn G (ts.map Plan.test) names := by
  induction ts generalizing names with
  | nil => trivial
  | cons t ts ih =>
      rcases List.forall_mem_cons.mp h with ⟨hHead, hTail⟩
      exact ⟨scoped_test hHead names, ih hTail _⟩

/- Parts after tests that ask no guard. -/
theorem scopedInTurn_tests_append
    {ts : List Test}
    {ps : List Plan}
    {names : List String}
    (hTests : ∀ t ∈ ts, t.Plain)
    (hParts : ScopedInTurn G ps names) :
    ScopedInTurn G (ts.map Plan.test ++ ps) names := by
  refine scopedInTurn_append (scopedInTurn_tests hTests names) ?_
  rwa [namesOfAll_tests, List.append_nil]

end Plan

end MatchCompiler

namespace MatchCompiler

namespace Checked

theorem mem_outerGuardsOfAll
    {ps : List Checked}
    {id : GuardId}
    (h : id ∈ outerGuardsOfAll ps) :
    ∃ p ∈ ps, id ∈ p.outerGuards := by
  induction ps with
  | nil => cases h
  | cons p ps ih =>
      rcases List.mem_append.mp h with h | h
      · exact ⟨p, List.mem_cons_self, h⟩
      · rcases ih h with ⟨q, hq, hid⟩
        exact ⟨q, List.mem_cons_of_mem p hq, hid⟩

theorem mem_outerGuards
    {ps : List Checked}
    {p : Checked}
    {id : GuardId}
    (hp : p ∈ ps)
    (hid : id ∈ p.outerGuards) :
    id ∈ outerGuardsOfAll ps := by
  induction ps with
  | nil => cases hp
  | cons q qs ih =>
      rcases List.mem_cons.mp hp with rfl | hMem
      · exact List.mem_append_left _ hid
      · exact List.mem_append_right _ (ih hMem)

theorem outerGuardsOfFields_eq
    (fs : List (FieldRead × Checked)) :
    outerGuardsOfFields fs = outerGuardsOfAll (fs.map Prod.snd) := by
  induction fs with
  | nil => rfl
  | cons f fs ih => exact congrArg _ ih

theorem outerGuardsOfTuple_eq
    (items : List (Nat × Checked)) :
    outerGuardsOfTuple items = outerGuardsOfAll (items.map Prod.snd) := by
  induction items with
  | nil => rfl
  | cons i items ih => exact congrArg _ ih

theorem outerGuardsOfEntries_eq
    (es : List (Literal × Checked)) :
    outerGuardsOfEntries es = outerGuardsOfAll (es.map Prod.snd) := by
  induction es with
  | nil => rfl
  | cons e es ih => exact congrArg _ ih

section

variable {G : Guard → Prop}
variable {o : LoweringOptions}
variable {inside : Bool}
variable {a : Access}
variable {names : List String}

/- The parts of an object are bound one after another. -/
theorem scoped_object
    (ha : a.Plain)
    {head : ObjectHead}
    {disc rest : List (FieldRead × Checked)}
    (hDisc :
      Plan.ScopedInTurn G
        (planParts o inside (fun _ => []) (fun f => .field a f.name) disc)
        names)
    (hRest :
      Plan.ScopedInTurn G
        (planParts o inside (fun _ => []) (fun f => .field a f.name) rest)
        (names ++ Plan.namesOfAll
          (planParts o inside (fun _ => []) (fun f => .field a f.name)
            disc)))
    (span : Span) :
    ((Checked.object span head (disc ++ rest)).plan o inside a).Scoped G
      names := by
  change Plan.ScopedInTurn G (_ ++ planFields o inside _ a) _
  rw [planFields_eq, planParts_append]
  exact Plan.scopedInTurn_tests_append
    (fun t ht =>
      (Test.reads_objectTests Access.paths_plain ha _ t ht).plain)
    (Plan.scopedInTurn_append hDisc hRest)

/- The last guards of an object are those of its parts. -/
theorem known_object
    {disc rest : List (FieldRead × Checked)}
    (hDisc :
      ∀ id ∈ outerGuardsOfAll (disc.map Prod.snd),
        Guard.Known G names id)
    (hRest :
      ∀ id ∈ outerGuardsOfAll (rest.map Prod.snd),
        Guard.Known G names id)
    (span : Span)
    (head : ObjectHead) :
    ∀ id ∈ (Checked.object span head (disc ++ rest)).outerGuards,
      Guard.Known G names id := by
  intro id hid
  change id ∈ outerGuardsOfFields _ at hid
  rw [outerGuardsOfFields_eq, List.map_append] at hid
  rcases mem_outerGuardsOfAll hid with ⟨q, hq, hid⟩
  rcases List.mem_append.mp hq with hq | hq
  · exact hDisc id (mem_outerGuards hq hid)
  · exact hRest id (mem_outerGuards hq hid)

end

end Checked

/- A type test asks no guard. -/
theorem TypeTested.scoped
    {ctx : CheckContext}
    {span : Span}
    {scrutinee : SchemaId}
    {id : DescriptorId}
    {s : Progress}
    {q : Checked}
    (h : TypeTested ctx span scrutinee id s q)
    (G : Guard → Prop)
    (o : LoweringOptions)
    (inside : Bool)
    (a : Access)
    (names names' : List String) :
    (q.plan o inside a).Scoped G names ∧
    ∀ id ∈ q.outerGuards, Guard.Known G names' id := by
  cases h <;> exact ⟨trivial, nofun⟩

mutual

/-
  The plan of an accepted pattern is scoped, and the names
  that its last guards use are bound at the end.
-/
theorem Accepts.scoped
    {ctx : CheckContext}
    {p : Pattern}
    {id : SchemaId}
    {s s' : Progress}
    {q : Checked}
    (h : Accepts ctx p id s q s')
    {G : Guard → Prop}
    (hGuards : ∀ g ∈ p.guards, G g)
    (o : LoweringOptions)
    (inside : Bool)
    {a : Access}
    (ha : a.Plain) :
    (q.plan o inside a).Scoped G s.names ∧
    ∀ id ∈ q.outerGuards, Guard.Known G s'.names id := by
  match h with
  | .wildcard _ _ _ => exact ⟨trivial, nofun⟩
  | .bind _ _ _ => exact ⟨trivial, nofun⟩
  | @Accepts.named _ _ _ _ _ _ s₁ x hInner _ =>
      have hScoped := hInner.scoped hGuards o inside ha
      refine ⟨hScoped.1, fun id hid => (hScoped.2 id hid).mono ?_⟩
      exact List.map_subset _ (s₁.grows_add _).subset
  | .literal _ =>
      exact ⟨Plan.scoped_test (Test.reads_literal ha _).plain _, nofun⟩
  | @Accepts.alt _ _ _ _ _ branches _ hBranches hAlike =>
      have hEach := hBranches.scoped
        (fun p hp g hg => hGuards g (Pattern.mem_guardsOfList hp hg))
        o ha
      refine ⟨?_, nofun⟩
      change Plan.ScopedEach G (Checked.planBranches o _ a) _
      rw [Checked.planBranches_eq, List.map_map, Plan.scopedEach_iff]
      intro p hp
      rcases List.mem_map.mp hp with ⟨b, hb, rfl⟩
      exact hEach b hb
  | @Accepts.guarded _ _ _ _ _ _ _ g hInner hUses =>
      have hSub (g' : Guard) hg' := hGuards g' (List.mem_cons_of_mem g hg')
      have hScoped := hInner.scoped hSub o inside ha
      have hAdds := hInner.adds o inside a
      have hOwn : Guard.Known G s'.names g.id :=
        ⟨g, hGuards g List.mem_cons_self, rfl, hUses⟩
      refine ⟨?_, fun id hid => ?_⟩
      · cases inside with
        | false => exact hScoped.1
        | true =>
            exact ⟨hScoped.1, hOwn.mono hAdds.subset_append, trivial⟩
      · rcases List.mem_append.mp hid with hid | hid
        · exact hScoped.2 id hid
        · rw [List.mem_singleton] at hid
          rw [hid]
          exact hOwn
  | .some _ _ hInner =>
      have hSub (g : Guard) hg :=
        hGuards g (List.mem_append_right _ (List.mem_append_left _ hg))
      have hScoped := hInner.scoped hSub o inside ha.payload
      refine ⟨⟨trivial, ?_, trivial⟩, hScoped.2⟩
      exact hScoped.1.mono (List.subset_append_left _ _)
  | .someUnknown _ =>
      exact ⟨⟨trivial, trivial, trivial⟩, nofun⟩
  | .none _ => exact ⟨trivial, nofun⟩
  | .object _ hHead _ _ hDisc hRest =>
      have hOwn := hDisc.scoped
        (fun part hPart g hg => hGuards g (List.mem_append_left _
          (Schema.mem_guards_of_discriminatorParts hPart hg)))
        o inside (fun _ => []) (fun f => .field a f.name) _ rfl
        (fun _ _ => nofun) (fun f _ => ha.field f.1.name)
      have hOthers := hRest.scoped
        (fun part hPart g hg => hGuards g
          (Schema.mem_guards_of_parts hPart hg))
        o inside (fun _ => []) (fun f => .field a f.name) _ rfl
        (fun _ _ => nofun) (fun f _ => ha.field f.1.name)
      have hHeadAdds := hHead.adds
      have hOwnAdds := hDisc.adds o inside (fun _ => [])
        (fun f => .field a f.name) _ rfl
      have hOtherAdds := hRest.adds o inside (fun _ => [])
        (fun f => .field a f.name) _ rfl
      constructor
      · have hNames := hHeadAdds.subset_append
        rw [List.append_nil] at hNames
        exact Checked.scoped_object ha
          (Plan.scopedInTurn_mono hOwn.1 hNames)
          (Plan.scopedInTurn_mono hOthers.1
            (hHeadAdds.append hOwnAdds).subset_append) _
      · exact Checked.known_object
          (fun id hid => (hOwn.2 id hid).mono hOtherAdds.subset)
          hOthers.2 _ _
  | @Accepts.seq _ span _ _ _ items spread _ _ _ hOne hKind hElement
      hDefaults hFixed hItems hSpread =>
      have hRegular :=
        (@Accepts.seq _ span _ _ _ _ _ _ _ _ hOne hKind hElement
          hDefaults hFixed hItems hSpread).regular
      rcases hRegular.seqAccesses a with
        ⟨length, slots, slice, hAcc, hLength, hSlice⟩
      rcases Lowered.paths_seqAccesses Access.paths_plain ha hAcc with
        ⟨hSlots, hPlain⟩
      have hZip := List.map_snd_zip hLength
      have hOwn := hItems.scoped
        (fun part hPart g hg => hGuards g
          (SeqElement.mem_guards_of_itemParts hPart hg))
        o inside (fun _ => []) (fun b => b) _ hZip
        (fun _ _ => nofun)
        (fun b hb => hSlots b.1 (List.of_mem_zip hb).1)
      have hOther := hSpread.scoped
        (fun p' hp' g hg => hGuards g
          (SeqElement.mem_guards_of_spreadPattern? hp' hg))
        o inside hPlain
      have hOwnAdds := hItems.adds o inside (fun _ => []) (fun b => b) _
        hZip
      have hOtherAdds := hSpread.adds o inside hSlice
      constructor
      · simp only [Checked.plan, hAcc, Checked.planSlots_eq]
        refine Plan.scopedInTurn_tests_append
          (fun t ht => (Test.reads_lengthTest ha hAcc t ht).plain)
          (Plan.scopedInTurn_append hOwn.1 ?_)
        exact Plan.scopedInTurn_mono hOther.1 hOwnAdds.subset_append
      · intro id hid
        cases spread with
        | none => exact (hOwn.2 id hid).mono hOtherAdds.subset
        | some q =>
            rcases List.mem_append.mp hid with hid | hid
            · exact (hOwn.2 id hid).mono hOtherAdds.subset
            · exact hOther.2 q rfl id hid
  | .tuple _ hItems =>
      have hParts := hItems.scoped
        (fun part hPart g hg => hGuards g
          (SeqElement.mem_guards_of_tupleParts hPart hg))
        o inside (fun _ => []) (fun i => .index a (.fromStart i)) _ rfl
        (fun _ _ => nofun) (fun _ _ => ha.index _)
      refine ⟨?_, fun id hid => ?_⟩
      · change Plan.ScopedInTurn G (Checked.planTuple o inside _ a) _
        rw [Checked.planTuple_eq]
        exact hParts.1
      · change id ∈ Checked.outerGuardsOfTuple _ at hid
        rw [Checked.outerGuardsOfTuple_eq] at hid
        exact hParts.2 id hid
  | .typeTest hTested => exact hTested.scoped G o inside a _ _
  | .narrow hTested _ => exact hTested.scoped G o inside a _ _
  | .map _ _ hEntries =>
      have hParts := hEntries.scoped
        (fun part hPart g hg => by
          rcases List.mem_map.mp hPart with ⟨e, he, rfl⟩
          exact hGuards g (Pattern.mem_guardsOfEntries he hg))
        o inside (fun key => [.hasKey a key])
        (fun key => .mapValue a key) _ rfl
        (fun i _ => List.forall_mem_singleton.mpr
          (Test.plain_ask trivial rfl ha))
        (fun i _ => ha.mapValue i.1)
      refine ⟨?_, fun id hid => ?_⟩
      · change Plan.ScopedInTurn G (Checked.planEntries o inside _ a) _
        rw [Checked.planEntries_eq]
        exact hParts.1
      · change id ∈ Checked.outerGuardsOfEntries _ at hid
        rw [Checked.outerGuardsOfEntries_eq] at hid
        exact hParts.2 id hid
  | .set _ _ _ =>
      exact ⟨Plan.scoped_test (Test.reads_set ha o _).plain _, nofun⟩
termination_by structural h

theorem AcceptsAll.scoped
    {ctx : CheckContext}
    {α β : Type}
    {parts : List (α × SchemaId × Pattern)}
    {qs : List (α × Checked)}
    {s s' : Progress}
    (h : AcceptsAll ctx parts s qs s')
    {G : Guard → Prop}
    (hGuards : ∀ part ∈ parts, ∀ g ∈ part.2.2.guards, G g)
    (o : LoweringOptions)
    (inside : Bool)
    (tests : β → List Test)
    (access : β → Access)
    (labelled : List (β × Checked))
    (hSame : labelled.map Prod.snd = qs.map Prod.snd)
    (hTests : ∀ i ∈ labelled, ∀ t ∈ tests i.1, t.Plain)
    (hAccess : ∀ i ∈ labelled, (access i.1).Plain) :
    Plan.ScopedInTurn G
      (Checked.planParts o inside tests access labelled) s.names ∧
    ∀ id ∈ Checked.outerGuardsOfAll (qs.map Prod.snd),
      Guard.Known G s'.names id := by
  match h with
  | .nil _ =>
      rw [List.map_nil, List.map_eq_nil_iff] at hSame
      subst hSame
      exact ⟨trivial, nofun⟩
  | @AcceptsAll.cons _ _ _ _ p _ _ _ _ s₁ _ hHead hTail =>
      rcases List.forall_mem_cons.mp hGuards with ⟨hOwn, hOthers⟩
      have hFirst {a : Access} (ha : a.Plain) :=
        hHead.scoped hOwn o inside ha
      have hRest (labelled : List (β × Checked)) hSame :=
        hTail.scoped hOthers o inside tests access labelled hSame
      have hAdds := hHead.adds o inside
      have hGrown (labelled : List (β × Checked)) hSame :=
        (hTail.adds o inside tests access labelled hSame).subset
      match labelled, hSame with
      | i :: labelled, hSame =>
          rcases List.cons.inj hSame with ⟨rfl, hTailSame⟩
          rcases List.forall_mem_cons.mp hTests with ⟨hTest, hTests⟩
          rcases List.forall_mem_cons.mp hAccess with ⟨ha, hAccess⟩
          have hHeadScoped := hFirst ha
          have hTailScoped := hRest labelled hTailSame hTests hAccess
          constructor
          · rw [Checked.planParts_cons, List.append_assoc]
            refine Plan.scopedInTurn_tests_append hTest
              ⟨hHeadScoped.1, ?_⟩
            exact Plan.scopedInTurn_mono hTailScoped.1
              (hAdds (access i.1)).subset_append
          · intro id hid
            rcases List.mem_append.mp hid with hid | hid
            · exact (hHeadScoped.2 id hid).mono
                (hGrown labelled hTailSame)
            · exact hTailScoped.2 id hid
termination_by structural h

theorem AcceptsBranches.scoped
    {ctx : CheckContext}
    {id : SchemaId}
    {before : List Binding}
    {ps : List Pattern}
    {branches : List (Checked × List Binding)}
    {r r' : Registry}
    (h : AcceptsBranches ctx id before ps r branches r')
    {G : Guard → Prop}
    (hGuards : ∀ p ∈ ps, ∀ g ∈ p.guards, G g)
    (o : LoweringOptions)
    {a : Access}
    (ha : a.Plain) :
    ∀ b ∈ branches,
      (b.1.plan o true a).Scoped G (before.map Binding.name) := by
  match h with
  | .nil _ _ _ => exact nofun
  | .cons hHead hTail =>
      rcases List.forall_mem_cons.mp hGuards with ⟨hFirst, hRest⟩
      exact List.forall_mem_cons.mpr
        ⟨(hHead.scoped hFirst o true ha).1, hTail.scoped hRest o ha⟩
termination_by structural h

theorem AcceptsSpread.scoped
    {ctx : CheckContext}
    {element : SchemaId}
    {p : Option Pattern}
    {s s' : Progress}
    {q : Option Checked}
    (h : AcceptsSpread ctx element p s q s')
    {G : Guard → Prop}
    (hGuards : ∀ p' ∈ p, ∀ g ∈ p'.guards, G g)
    (o : LoweringOptions)
    (inside : Bool)
    {slice : Option Access}
    (ha : ∀ a ∈ slice, a.Plain) :
    Plan.ScopedInTurn G (Checked.planSpread o inside q slice) s.names ∧
    ∀ q' ∈ q, ∀ id ∈ q'.outerGuards, Guard.Known G s'.names id := by
  match h with
  | .none _ _ => exact ⟨trivial, nofun⟩
  | .some hInner =>
      have hScoped {a : Access} (ha : a.Plain) :=
        hInner.scoped (hGuards _ rfl) o inside ha
      constructor
      · cases slice with
        | none => trivial
        | some a => exact ⟨(hScoped (ha a rfl)).1, trivial⟩
      · rintro q' ⟨⟩
        exact (hScoped Access.plain_scrutinee).2

end

end MatchCompiler

------------------------------------------------------------
-- Accepted Arms
------------------------------------------------------------

namespace MatchCompiler

/- The arm comes from a pattern that is accepted at a schema. -/
def CheckedArm.AcceptedFrom
    (arm : CheckedArm)
    (p : Pattern) : Prop :=
  ∃ (r : Registry) (ctx : CheckContext) (id : SchemaId),
    (r.checkArm ctx id p).2 = .ok arm

namespace CheckedArm

variable {arm : CheckedArm}
variable {p : Pattern}

/- The pattern of an accepted arm follows the rules. -/
theorem AcceptedFrom.exists_accepts
    (h : arm.AcceptedFrom p) :
    ∃ ctx id s s',
      Accepts ctx p id s arm.pattern s' ∧
      s.bindings = [] ∧ s'.bindings = arm.bindings := by
  rcases h with ⟨r, ctx, id, hArm⟩
  have hAccepts : Accepts ctx p id _ arm.pattern _ :=
    accepts_of_checkArm (Prod.ext rfl hArm)
  exact ⟨ctx, id, _, _, hAccepts, rfl, rfl⟩

theorem AcceptedFrom.regular
    (h : arm.AcceptedFrom p) :
    arm.pattern.Regular := by
  rcases h.exists_accepts with ⟨ctx, id, s, s', hAccepts, -⟩
  exact hAccepts.regular

/- The plan of an accepted arm is uniform. -/
theorem AcceptedFrom.uniform
    (h : arm.AcceptedFrom p)
    (o : LoweringOptions) :
    (arm.plan o).Uniform := by
  rcases h.exists_accepts with ⟨ctx, id, s, s', hAccepts, hNone, -⟩
  have hNodup : s.names.Nodup := by
    unfold Progress.names
    rw [hNone]
    exact List.nodup_nil
  have hPattern := hAccepts.uniform hNodup o false
    Access.plain_scrutinee
  refine .all (List.forall_mem_cons.mpr ⟨hPattern, fun q hq => ?_⟩)
  rcases List.mem_map.mp hq with ⟨t, ht, rfl⟩
  rcases List.mem_map.mp ht with ⟨id, -, rfl⟩
  exact .guard id

/- The plan of an accepted arm binds the names of the arm. -/
theorem AcceptedFrom.names_plan
    (h : arm.AcceptedFrom p)
    (o : LoweringOptions) :
    (arm.plan o).names.Nodup ∧
    (arm.bindings.map Binding.name).Perm (arm.plan o).names := by
  rcases h.exists_accepts with ⟨ctx, id, s, s', hAccepts, hNone, hArm⟩
  have hNodup : s.names.Nodup := by
    unfold Progress.names
    rw [hNone]
    exact List.nodup_nil
  have hAdds := hAccepts.adds o false .scrutinee
  have hNames :
      (arm.plan o).names =
        (arm.pattern.plan o false .scrutinee).names := by
    simp only [plan, Plan.names, Plan.namesOfAll,
      Plan.namesOfAll_tests, List.append_nil]
  rw [hNames]
  refine ⟨hAdds.nodup_names hNodup, hAdds.perm_names ?_⟩
  rw [hArm, hNone, List.nil_append]

/- The plan of an accepted arm is scoped. -/
theorem AcceptedFrom.scoped
    (h : arm.AcceptedFrom p)
    (o : LoweringOptions) :
    (arm.plan o).Scoped (· ∈ p.guards) [] := by
  rcases h.exists_accepts with ⟨ctx, id, s, s', hAccepts, hNone, -⟩
  have hScoped := hAccepts.scoped (fun g hg => hg) o false
    Access.plain_scrutinee
  have hAdds := hAccepts.adds o false .scrutinee
  have hNames : s.names = [] := by
    unfold Progress.names
    rw [hNone]
    rfl
  rw [hNames] at hScoped
  refine ⟨hScoped.1, ?_⟩
  -- The guards that are put off bind no names themselves.
  have hLast :
      ∀ names, s'.names ⊆ names →
        ∀ ids : List GuardId,
          (∀ id ∈ ids, Guard.Known (· ∈ p.guards) s'.names id) →
          Plan.ScopedInTurn (· ∈ p.guards)
            ((ids.map Test.guard).map Plan.test) names := by
    intro names hSub ids hIds
    induction ids generalizing names with
    | nil => trivial
    | cons id ids ih =>
        rcases List.forall_mem_cons.mp hIds with ⟨hHead, hTail⟩
        refine ⟨hHead.mono hSub, ih _ ?_ hTail⟩
        exact List.subset_append_of_subset_left _ hSub
  refine hLast _ ?_ _ hScoped.2
  have hSub := hAdds.subset_append
  rwa [hNames] at hSub

end CheckedArm

end MatchCompiler
