import MatchCompiler.Procedure.Lower

/-
  This file describes the lowering of checked patterns in two
  steps.

  A plan keeps what lowering has to know of a pattern: tests,
  names with their accesses, alternations and sequences of
  parts. The nodes of a pattern are told apart only when the
  plan is made; numbering alternations and joining bindings
  is done on plans. Going through a plan gives the same tests
  and bindings as lowering at once.

  Key definitions include:
    * `Plan`
    * `Plan.names`
    * `Plan.lower`
    * `Checked.plan`
    * `Checked.outerGuards`
    * `Checked.Regular`
    * `CheckedArm.plan`

  Key theorems include:
    * `Checked.partInduction`
    * `Checked.lower_eq`
    * `CheckedArm.lower_plan`
-/

------------------------------------------------------------
-- Plans
------------------------------------------------------------

namespace MatchCompiler

/-
  A matching plan: one test, a name for the value of an
  access, the first of some branches that matches, or several
  parts in order.
-/
inductive Plan where
| test (test : Test)
| bind (name : String) (access : Access) (inner : Plan)
| alt (branches : List Plan)
| all (parts : List Plan)

namespace Plan

section

variable {motive : Plan → Prop}
variable (test : ∀ t, motive (.test t))
variable (bind : ∀ x a p, motive p → motive (.bind x a p))
variable (alt : ∀ ps, (∀ p ∈ ps, motive p) → motive (.alt ps))
variable (all : ∀ ps, (∀ p ∈ ps, motive p) → motive (.all ps))

include test bind alt all

set_option linter.unusedSectionVars false in
mutual

/- Induction over plans with one case for each form. -/
@[elab_as_elim]
theorem partInduction
    (p : Plan) :
    motive p := by
  cases p with
  | test t => exact test t
  | bind x a p => exact bind x a p (partInduction p)
  | alt ps => exact alt ps (partInductionAll ps)
  | all ps => exact all ps (partInductionAll ps)
termination_by structural p

/- The same for the plans of a list. -/
theorem partInductionAll
    (ps : List Plan) :
    ∀ p ∈ ps, motive p := by
  cases ps with
  | nil => exact nofun
  | cons q qs =>
      have hHead := partInduction q
      have hTail := partInductionAll qs
      exact List.forall_mem_cons.mpr ⟨hHead, hTail⟩
termination_by structural ps

end

end

mutual

/-
  The names that a plan binds; all branches of an alternation
  are meant to bind those of the first.
-/
def names : Plan → List String
| .test _ => []
| .bind x _ p => x :: p.names
| .alt ps => namesOfFirst ps
| .all ps => namesOfAll ps
termination_by structural p => p

/- The names of the first of some plans. -/
def namesOfFirst : List Plan → List String
| [] => []
| p :: _ => p.names
termination_by structural ps => ps

/- The names of all of some plans. -/
def namesOfAll : List Plan → List String
| [] => []
| p :: ps => p.names ++ namesOfAll ps
termination_by structural ps => ps

end

end Plan

end MatchCompiler

------------------------------------------------------------
-- Lowering Plans
------------------------------------------------------------

namespace MatchCompiler

namespace Lowered

/-
  An alternation of lowered branches, and the next number for
  an alternation.
-/
def join
    (o : LoweringOptions)
    (branches : List Lowered)
    (n : Nat) : Lowered × Nat :=
  let bound := (branches.head?.map Lowered.bindings).getD []
  let tests := branches.map Lowered.test
  if branches.isEmpty then
    (.ofTest .never, n)
  else if bound.all (fun (x, a) => agreeOn branches x a) then
    ({ test := .or tests, bindings := bound }, n)
  else
    ({ test := .alt n tests
       bindings := bound.map fun (x, a) =>
         if agreeOn branches x a then
           (x, a)
         else
           (x, choice o n branches x) }, n + 1)

/- Joining is what an alternation does to the state. -/
theorem alternation_run
    (o : LoweringOptions)
    (branches : List Lowered)
    (s : LoweringState) :
    (alternation o branches).run s =
      ((join o branches s.alternations).1,
        { s with
          alternations := (join o branches s.alternations).2 }) := by
  unfold alternation join
  by_cases hEmpty : branches.isEmpty
  · rw [if_pos hEmpty, if_pos hEmpty]
    rfl
  · rw [if_neg hEmpty, if_neg hEmpty]
    split
    · rfl
    · rfl

end Lowered

namespace Plan

mutual

/-
  Lower a plan when some alternations have a number already;
  also gives the next number.
-/
def lower
    (o : LoweringOptions) : Plan → Nat → Lowered × Nat
| .test t => fun n => (.ofTest t, n)
| .bind x a p => fun n =>
    let (part, n) := p.lower o n
    ({ part with bindings := (x, a) :: part.bindings }, n)
| .alt ps => fun n =>
    let (parts, n) := lowerAll o ps n
    Lowered.join o parts n
| .all ps => fun n =>
    let (parts, n) := lowerAll o ps n
    (.conjunction [] parts, n)
termination_by structural p => p

/- Lower several plans in order. -/
def lowerAll
    (o : LoweringOptions) : List Plan → Nat → List Lowered × Nat
| [] => fun n => ([], n)
| p :: ps => fun n =>
    let (part, n) := p.lower o n
    let (rest, n) := lowerAll o ps n
    (part :: rest, n)
termination_by structural ps => ps

end

/- Plans in two parts are lowered one part after the other. -/
theorem lowerAll_append
    (o : LoweringOptions)
    (ps qs : List Plan)
    (n : Nat) :
    lowerAll o (ps ++ qs) n =
      ((lowerAll o ps n).1 ++ (lowerAll o qs (lowerAll o ps n).2).1,
        (lowerAll o qs (lowerAll o ps n).2).2) := by
  induction ps generalizing n with
  | nil => rfl
  | cons p ps ih => simp only [List.cons_append, lowerAll, ih]

/- Tests are lowered to themselves. -/
theorem lowerAll_tests
    (o : LoweringOptions)
    (ts : List Test)
    (n : Nat) :
    lowerAll o (ts.map Plan.test) n = (ts.map Lowered.ofTest, n) := by
  induction ts with
  | nil => rfl
  | cons t ts ih => simp only [List.map_cons, lowerAll, lower, ih]

end Plan

namespace Lowered

/- Tests in front of parts are parts without names. -/
theorem conjunction_tests
    (ts : List Test)
    (parts : List Lowered) :
    conjunction [] (ts.map Lowered.ofTest ++ parts) =
      conjunction ts parts := by
  have hTests : (ts.map Lowered.ofTest).map Lowered.test = ts := by
    rw [List.map_map]
    exact List.map_id ts
  have hBindings :
      (ts.map Lowered.ofTest).flatMap Lowered.bindings = [] := by
    rw [List.flatMap_map]
    exact List.flatMap_eq_nil_iff.mpr fun _ _ => rfl
  unfold conjunction
  rw [List.map_append, hTests, List.flatMap_append, hBindings,
    List.nil_append, List.nil_append]

end Lowered

end MatchCompiler

------------------------------------------------------------
-- Induction Over Checked Patterns
------------------------------------------------------------

namespace MatchCompiler

namespace Checked

section

variable {motive : Checked → Prop}
variable (wildcard : ∀ s, motive (.wildcard s))
variable (literal : ∀ s l, motive (.literal s l))
variable (set : ∀ s p, motive (.set s p))
variable (typeIs : ∀ s id name, motive (.typeIs s id name))
variable (bind : ∀ s x p, motive p → motive (.bind s x p))
variable (guarded : ∀ s p id, motive p → motive (.guarded s p id))
variable (some : ∀ s p, motive p → motive (.some s p))
variable (alt : ∀ s ps, (∀ p ∈ ps, motive p) → motive (.alt s ps))
variable (object :
  ∀ s h fs, (∀ f ∈ fs, motive (Prod.snd f)) →
    motive (.object s h fs))
variable (tuple :
  ∀ s items, (∀ i ∈ items, motive (Prod.snd i)) →
    motive (.tuple s items))
variable (seq :
  ∀ s l n items spread, (∀ p ∈ items, motive p) →
    (∀ p ∈ spread, motive p) → motive (.seq s l n items spread))
variable (map :
  ∀ s es, (∀ e ∈ es, motive (Prod.snd e)) → motive (.map s es))

include wildcard literal set typeIs bind guarded some alt object
  tuple seq map

set_option linter.unusedSectionVars false in
mutual

/- Induction over checked patterns. -/
@[elab_as_elim]
theorem partInduction
    (p : Checked) :
    motive p := by
  cases p with
  | wildcard s => exact wildcard s
  | literal s l => exact literal s l
  | set s p => exact set s p
  | typeIs s id name => exact typeIs s id name
  | bind s x p => exact bind s x p (partInduction p)
  | guarded s p id => exact guarded s p id (partInduction p)
  | some s p => exact some s p (partInduction p)
  | alt s ps => exact alt s ps (partInductionAll ps)
  | object s h fs => exact object s h fs (partInductionFields fs)
  | tuple s items => exact tuple s items (partInductionItems items)
  | seq s l n items spread =>
      cases spread with
      | none =>
          exact seq s l n items Option.none (partInductionAll items)
            nofun
      | some q =>
          have hSpread := partInduction q
          refine seq s l n items (Option.some q)
            (partInductionAll items) ?_
          rintro q' ⟨⟩
          exact hSpread
  | map s es => exact map s es (partInductionEntries es)
termination_by structural p

/- The same for the patterns of a list. -/
theorem partInductionAll
    (ps : List Checked) :
    ∀ p ∈ ps, motive p := by
  cases ps with
  | nil => exact nofun
  | cons q qs =>
      have hHead := partInduction q
      have hTail := partInductionAll qs
      exact List.forall_mem_cons.mpr ⟨hHead, hTail⟩
termination_by structural ps

/- The same for the fields of an object. -/
theorem partInductionFields
    (fs : List (FieldRead × Checked)) :
    ∀ f ∈ fs, motive f.2 := by
  cases fs with
  | nil => exact nofun
  | cons f fs =>
      cases f with
      | mk r q =>
          have hHead := partInduction q
          have hTail := partInductionFields fs
          exact List.forall_mem_cons.mpr ⟨hHead, hTail⟩
termination_by structural fs

/- The same for the items of a tuple. -/
theorem partInductionItems
    (items : List (Nat × Checked)) :
    ∀ i ∈ items, motive i.2 := by
  cases items with
  | nil => exact nofun
  | cons i is =>
      cases i with
      | mk n q =>
          have hHead := partInduction q
          have hTail := partInductionItems is
          exact List.forall_mem_cons.mpr ⟨hHead, hTail⟩
termination_by structural items

/- The same for the entries of a map. -/
theorem partInductionEntries
    (es : List (Literal × Checked)) :
    ∀ e ∈ es, motive e.2 := by
  cases es with
  | nil => exact nofun
  | cons e es =>
      cases e with
      | mk k q =>
          have hHead := partInduction q
          have hTail := partInductionEntries es
          exact List.forall_mem_cons.mpr ⟨hHead, hTail⟩
termination_by structural es

end

end

end Checked

end MatchCompiler

------------------------------------------------------------
-- Plans Of Checked Patterns
------------------------------------------------------------

namespace MatchCompiler

namespace Checked

mutual

/-
  The plan of a pattern that matches the value of an access;
  `inside` says whether an alternation is around it.
-/
def plan
    (o : LoweringOptions)
    (inside : Bool) : Checked → Access → Plan
| .wildcard _ => fun _ => .test .always
| .bind _ x inner => fun a => .bind x a (inner.plan o inside a)
| .literal _ l => fun a => .test (Lowered.literal a l).test
| .alt _ branches => fun a => .alt (planBranches o branches a)
| .guarded _ inner id => fun a =>
    if inside then
      .all [inner.plan o inside a, .test (.guard id)]
    else
      inner.plan o inside a
| .object _ head fields => fun a =>
    .all ((Lowered.objectTests a head).map Plan.test ++
      planFields o inside fields a)
| .some _ inner => fun a =>
    .all [.test (.isSome a), inner.plan o inside (.payload a)]
| .tuple _ items => fun a => .all (planTuple o inside items a)
| .seq _ layout fixed items spread => fun a =>
    match Lowered.seqAccesses layout a fixed with
    | Option.none => .test .never
    | Option.some (length, slots, slice) =>
        .all (length.toList.map Plan.test ++
          (planSlots o inside items slots ++
            planSpread o inside spread slice))
| .map _ entries => fun a => .all (planEntries o inside entries a)
| .set _ p => fun a => .test (Lowered.set o a p)
| .typeIs _ _ name => fun a => .test (.typeIs a name)
termination_by structural p => p

/- The plans of the branches of an alternation. -/
def planBranches
    (o : LoweringOptions) : List Checked → Access → List Plan
| [] => fun _ => []
| p :: ps => fun a => p.plan o true a :: planBranches o ps a
termination_by structural ps => ps

/- The plans of the fields of an object. -/
def planFields
    (o : LoweringOptions)
    (inside : Bool) :
    List (FieldRead × Checked) → Access → List Plan
| [] => fun _ => []
| (f, p) :: fs => fun a =>
    p.plan o inside (.field a f.name) :: planFields o inside fs a
termination_by structural fs => fs

/- The plans of the items of a tuple. -/
def planTuple
    (o : LoweringOptions)
    (inside : Bool) : List (Nat × Checked) → Access → List Plan
| [] => fun _ => []
| (i, p) :: items => fun a =>
    p.plan o inside (.index a (.fromStart i)) ::
      planTuple o inside items a
termination_by structural items => items

/- The plans of the items of a sequence at their slots. -/
def planSlots
    (o : LoweringOptions)
    (inside : Bool) : List Checked → List Access → List Plan
| [] => fun _ => []
| p :: ps => fun slots =>
    match slots with
    | [] => []
    | a :: slots => p.plan o inside a :: planSlots o inside ps slots
termination_by structural ps => ps

/- The plan of the spread of a sequence, if there is one. -/
def planSpread
    (o : LoweringOptions)
    (inside : Bool) : Option Checked → Option Access → List Plan
| Option.none => fun _ => []
| Option.some p => fun slice =>
    match slice with
    | Option.none => []
    | Option.some a => [p.plan o inside a]
termination_by structural spread => spread

/- The plans of the entries of a map. -/
def planEntries
    (o : LoweringOptions)
    (inside : Bool) :
    List (Literal × Checked) → Access → List Plan
| [] => fun _ => []
| (key, p) :: es => fun a =>
    .test (.hasKey a key) :: p.plan o inside (.mapValue a key) ::
      planEntries o inside es a
termination_by structural es => es

end

mutual

/-
  The guards of a pattern that stand outside of alternations,
  a guard after those inside what it guards.
-/
def outerGuards : Checked → List GuardId
| .bind _ _ inner => inner.outerGuards
| .guarded _ inner id => inner.outerGuards ++ [id]
| .some _ inner => inner.outerGuards
| .object _ _ fields => outerGuardsOfFields fields
| .tuple _ items => outerGuardsOfTuple items
| .seq _ _ _ items none => outerGuardsOfAll items
| .seq _ _ _ items (Option.some spread) =>
    outerGuardsOfAll items ++ spread.outerGuards
| .map _ entries => outerGuardsOfEntries entries
| _ => []
termination_by structural p => p

/- Those of several patterns. -/
def outerGuardsOfAll : List Checked → List GuardId
| [] => []
| p :: ps => p.outerGuards ++ outerGuardsOfAll ps
termination_by structural ps => ps

/- Those of the fields of an object. -/
def outerGuardsOfFields : List (FieldRead × Checked) → List GuardId
| [] => []
| (_, p) :: fs => p.outerGuards ++ outerGuardsOfFields fs
termination_by structural fs => fs

/- Those of the items of a tuple. -/
def outerGuardsOfTuple : List (Nat × Checked) → List GuardId
| [] => []
| (_, p) :: items => p.outerGuards ++ outerGuardsOfTuple items
termination_by structural items => items

/- Those of the entries of a map. -/
def outerGuardsOfEntries : List (Literal × Checked) → List GuardId
| [] => []
| (_, p) :: es => p.outerGuards ++ outerGuardsOfEntries es
termination_by structural es => es

end

/-
  The sequence patterns have one item for each slot, a spread
  only where the layout has one, and no fixed length that
  their layout refuses; the numbers of set members lie in the
  domain.
-/
inductive Regular : Checked → Prop
| wildcard (s : Span) : Regular (.wildcard s)
| literal (s : Span) (l : CheckedLiteral) : Regular (.literal s l)
| set
    (s : Span)
    {p : SetPattern}
    (hMembers :
      ∀ n ∈ p.domain, ∀ m ∈ p.members, ∀ k ∈ m.ordinal, k < n) :
    Regular (.set s p)
| typeIs (s : Span) (id : SchemaId) (name : String) :
    Regular (.typeIs s id name)
| bind (s : Span) (x : String) {p : Checked} (h : Regular p) :
    Regular (.bind s x p)
| guarded (s : Span) {p : Checked} (id : GuardId) (h : Regular p) :
    Regular (.guarded s p id)
| some (s : Span) {p : Checked} (h : Regular p) :
    Regular (.some s p)
| alt
    (s : Span)
    {ps : List Checked}
    (h : ∀ p ∈ ps, Regular p) :
    Regular (.alt s ps)
| object
    (s : Span)
    (head : ObjectHead)
    {fs : List (FieldRead × Checked)}
    (h : ∀ f ∈ fs, Regular f.2) :
    Regular (.object s head fs)
| tuple
    (s : Span)
    {items : List (Nat × Checked)}
    (h : ∀ i ∈ items, Regular i.2) :
    Regular (.tuple s items)
| seq
    (s : Span)
    {l : SeqLayout}
    {fixed : Option Nat}
    {items : List Checked}
    {spread : Option Checked}
    (hItems : ∀ p ∈ items, Regular p)
    (hSpread : ∀ p ∈ spread, Regular p)
    (hSlots : items.length = l.slotCount)
    (hSpreadAt : spread.isSome → l.spreadAt.isSome)
    (hFixed : ∀ n ∈ fixed, l.accepts n) :
    Regular (.seq s l fixed items spread)
| map
    (s : Span)
    {es : List (Literal × Checked)}
    (h : ∀ e ∈ es, Regular e.2) :
    Regular (.map s es)

end Checked

end MatchCompiler

------------------------------------------------------------
-- Slots Of A Layout
------------------------------------------------------------

namespace MatchCompiler

namespace SeqLayout

/- A resolution has a source for each slot. -/
theorem length_slots_of_resolve
    {l : SeqLayout}
    {n : Nat}
    {r : Resolution}
    (h : l.resolve n = some r) :
    r.slots.length = l.slotCount := by
  unfold resolve at h
  split at h
  · split at h
    · cases h
      exact length_assign _ _ _ _
    · rename_i i hSpread
      cases h
      have hLe := l.spread_le i hSpread
      simp only [List.length_append, length_assign, List.length_take,
        List.length_drop, slotCount]
      omega
  · cases h

/- A resolution has a spread if the layout has one. -/
theorem isSome_spread_of_resolve
    {l : SeqLayout}
    {n : Nat}
    {r : Resolution}
    (h : l.resolve n = some r) :
    r.spread.isSome = l.spreadAt.isSome := by
  unfold resolve at h
  split at h
  · split at h
    · rename_i hSpread
      cases h
      rw [hSpread]
      rfl
    · rename_i i hSpread
      cases h
      rw [hSpread]
      rfl
  · cases h

/- The saturated length can match. -/
theorem accepts_saturatedLength
    (l : SeqLayout) :
    l.accepts l.saturatedLength = true := by
  unfold accepts minLength maxLength saturatedLength
  cases l.spreadAt <;> simp

/- The saturated length has a resolution. -/
theorem exists_resolve_saturated
    (l : SeqLayout) :
    ∃ r, l.resolve l.saturatedLength = some r := by
  rw [← Option.isSome_iff_exists, isSome_resolve]
  exact l.accepts_saturatedLength

theorem length_slots_resolveSaturated
    (l : SeqLayout) :
    l.resolveSaturated.slots.length = l.slotCount := by
  rcases l.exists_resolve_saturated with ⟨r, hr⟩
  have hLength := length_slots_of_resolve hr
  simp only [resolveSaturated, hr]
  cases l.spreadAt with
  | none => exact hLength
  | some i =>
      change (r.slots.take i ++ (r.slots.drop i).map _).length = _
      rw [List.length_append, List.length_map, ← List.length_append,
        List.take_append_drop]
      exact hLength

theorem isSome_spread_resolveSaturated
    (l : SeqLayout) :
    l.resolveSaturated.spread.isSome = l.spreadAt.isSome := by
  rcases l.exists_resolve_saturated with ⟨r, hr⟩
  have hSpread := isSome_spread_of_resolve hr
  simp only [resolveSaturated, hr]
  cases hAt : l.spreadAt with
  | none =>
      rw [hAt] at hSpread
      exact hSpread
  | some i =>
      rw [hAt] at hSpread
      exact hSpread

theorem isSome_spreadAccess?
    (l : SeqLayout)
    (a : Access) :
    (l.spreadAccess? a).isSome = l.spreadAt.isSome := by
  rw [← l.isSome_spread_resolveSaturated]
  unfold spreadAccess?
  cases l.resolveSaturated.spread <;> rfl

end SeqLayout

namespace Lowered

/-
  A layout whose fixed length can match has an access for
  each slot, and one for its spread.
-/
theorem exists_seqAccesses
    {l : SeqLayout}
    {fixed : Option Nat}
    (hFixed : ∀ n ∈ fixed, l.accepts n)
    (a : Access) :
    ∃ length slots slice,
      seqAccesses l a fixed = some (length, slots, slice) ∧
      slots.length = l.slotCount ∧
      slice.isSome = l.spreadAt.isSome := by
  cases fixed with
  | none =>
      refine ⟨_, _, _, rfl, ?_, l.isSome_spreadAccess? a⟩
      unfold SeqLayout.slotAccesses
      rw [List.length_map, List.length_zipIdx,
        l.length_slots_resolveSaturated]
  | some n =>
      have hSome : (l.resolve n).isSome := by
        rw [l.isSome_resolve]
        exact hFixed n rfl
      rcases Option.isSome_iff_exists.mp hSome with ⟨r, hr⟩
      refine ⟨none, r.slots.map a.slot,
        r.spread.map (Access.slice a), ?_, ?_, ?_⟩
      · simp only [seqAccesses, hr, Option.map_some]
      · rw [List.length_map]
        exact SeqLayout.length_slots_of_resolve hr
      · rw [Option.isSome_map]
        exact SeqLayout.isSome_spread_of_resolve hr

end Lowered

end MatchCompiler

------------------------------------------------------------
-- Lowering Through Plans
------------------------------------------------------------

namespace MatchCompiler

/-
  A step of lowering adds guards to those asked last, and
  gives its result from the next number of an alternation.
-/
def LowersTo
    {α : Type}
    (m : Lower α)
    (guards : List GuardId)
    (f : Nat → α × Nat) : Prop :=
  ∀ s, m.run s =
    ((f s.alternations).1,
      { guards := s.guards ++ guards
        alternations := (f s.alternations).2 })

namespace LowersTo

theorem pure
    {α : Type}
    (x : α) :
    LowersTo (Pure.pure x) [] (fun n => (x, n)) := by
  intro s
  rw [List.append_nil]
  rfl

theorem bind
    {α β : Type}
    {m : Lower α}
    {k : α → Lower β}
    {gs hs : List GuardId}
    {f : Nat → α × Nat}
    {g : α → Nat → β × Nat}
    (hm : LowersTo m gs f)
    (hk : ∀ x, LowersTo (k x) hs (g x)) :
    LowersTo (m >>= k) (gs ++ hs)
      (fun n => g (f n).1 (f n).2) := by
  intro s
  rw [StateT.run_bind, hm s]
  change (k _).run _ = _
  rw [hk]
  simp only [List.append_assoc]

/- A result that needs no further step. -/
theorem map
    {α β : Type}
    {m : Lower α}
    {gs : List GuardId}
    {f : Nat → α × Nat}
    (hm : LowersTo m gs f)
    (k : α → β) :
    LowersTo (m >>= fun x => Pure.pure (k x)) gs
      (fun n => (k (f n).1, (f n).2)) := by
  have h := hm.bind (fun x => LowersTo.pure (k x))
  rwa [List.append_nil] at h

end LowersTo

end MatchCompiler

namespace MatchCompiler

namespace Checked

variable {o : LoweringOptions}
variable {inside : Bool}

/- Guards are asked last only outside of alternations. -/
def askedLast
    (inside : Bool)
    (guards : List GuardId) : List GuardId :=
  if inside then [] else guards

theorem askedLast_append
    (inside : Bool)
    (gs hs : List GuardId) :
    askedLast inside (gs ++ hs) =
      askedLast inside gs ++ askedLast inside hs := by
  cases inside <;> rfl

theorem askedLast_nil
    (inside : Bool) :
    askedLast inside [] = [] := by
  cases inside <;> rfl

/- Lowering a pattern goes through its plan. -/
def ThroughPlan
    (o : LoweringOptions)
    (p : Checked) : Prop :=
  ∀ inside a,
    LowersTo (p.lower o inside a) (askedLast inside p.outerGuards)
      ((p.plan o inside a).lower o)

theorem lowersTo_branches
    {ps : List Checked}
    (h : ∀ p ∈ ps, ThroughPlan o p)
    (a : Access) :
    LowersTo (lowerAll o ps a) []
      (Plan.lowerAll o (planBranches o ps a)) := by
  induction ps with
  | nil => exact LowersTo.pure []
  | cons p ps ih =>
      rcases List.forall_mem_cons.mp h with ⟨hHead, hTail⟩
      exact (hHead true a).bind fun part =>
        (ih hTail).map fun rest => part :: rest

theorem lowersTo_fields
    {fs : List (FieldRead × Checked)}
    (h : ∀ f ∈ fs, ThroughPlan o f.2)
    (a : Access) :
    LowersTo (lowerFields o fs inside a)
      (askedLast inside (outerGuardsOfFields fs))
      (Plan.lowerAll o (planFields o inside fs a)) := by
  induction fs with
  | nil =>
      rw [outerGuardsOfFields, askedLast_nil]
      exact LowersTo.pure []
  | cons f fs ih =>
      rcases List.forall_mem_cons.mp h with ⟨hHead, hTail⟩
      rw [outerGuardsOfFields, askedLast_append]
      exact (hHead inside (.field a f.1.name)).bind fun part =>
        (ih hTail).map fun rest => part :: rest

theorem lowersTo_tuple
    {items : List (Nat × Checked)}
    (h : ∀ i ∈ items, ThroughPlan o i.2)
    (a : Access) :
    LowersTo (lowerTuple o items inside a)
      (askedLast inside (outerGuardsOfTuple items))
      (Plan.lowerAll o (planTuple o inside items a)) := by
  induction items with
  | nil =>
      rw [outerGuardsOfTuple, askedLast_nil]
      exact LowersTo.pure []
  | cons i items ih =>
      rcases List.forall_mem_cons.mp h with ⟨hHead, hTail⟩
      rw [outerGuardsOfTuple, askedLast_append]
      exact (hHead inside (.index a (.fromStart i.1))).bind fun part =>
        (ih hTail).map fun rest => part :: rest

theorem lowersTo_slots
    (inside : Bool)
    {ps : List Checked}
    (h : ∀ p ∈ ps, ThroughPlan o p)
    {slots : List Access}
    (hSlots : ps.length = slots.length) :
    LowersTo (lowerSlots o ps inside slots)
      (askedLast inside (outerGuardsOfAll ps))
      (Plan.lowerAll o (planSlots o inside ps slots)) := by
  induction ps generalizing slots with
  | nil =>
      rw [outerGuardsOfAll, askedLast_nil]
      exact LowersTo.pure []
  | cons p ps ih =>
      rcases List.forall_mem_cons.mp h with ⟨hHead, hTail⟩
      cases slots with
      | nil => cases hSlots
      | cons a slots =>
          rw [outerGuardsOfAll, askedLast_append]
          exact (hHead inside a).bind fun part =>
            (ih hTail (Nat.succ.inj hSlots)).map fun rest =>
              part :: rest

theorem lowersTo_entries
    {es : List (Literal × Checked)}
    (h : ∀ e ∈ es, ThroughPlan o e.2)
    (a : Access) :
    LowersTo (lowerEntries o es inside a)
      (askedLast inside (outerGuardsOfEntries es))
      (Plan.lowerAll o (planEntries o inside es a)) := by
  induction es with
  | nil =>
      rw [outerGuardsOfEntries, askedLast_nil]
      exact LowersTo.pure []
  | cons e es ih =>
      rcases List.forall_mem_cons.mp h with ⟨hHead, hTail⟩
      rw [outerGuardsOfEntries, askedLast_append]
      exact (hHead inside (.mapValue a e.1)).bind fun part =>
        (ih hTail).map fun rest =>
          .ofTest (.hasKey a e.1) :: part :: rest

/- A conjunction of tests and parts is the plan of all. -/
theorem lowersTo_conjunction
    {m : Lower (List Lowered)}
    {gs : List GuardId}
    {parts : List Plan}
    (h : LowersTo m gs (Plan.lowerAll o parts))
    (tests : List Test) :
    LowersTo (m >>= fun parts => pure (.conjunction tests parts)) gs
      ((Plan.all (tests.map Plan.test ++ parts)).lower o) := by
  have hMap := h.map (Lowered.conjunction tests)
  intro s
  rw [hMap s]
  simp only [Plan.lower, Plan.lowerAll_append, Plan.lowerAll_tests,
    Lowered.conjunction_tests]

/- The items of a sequence pattern without a spread. -/
theorem lowersTo_items
    (inside : Bool)
    {items : List Checked}
    {slots : List Access}
    (hItems : ∀ p ∈ items, ThroughPlan o p)
    (hSlots : items.length = slots.length) :
    LowersTo
      (lowerSlots o items inside slots >>= fun parts =>
        pure (parts ++ []))
      (askedLast inside (outerGuardsOfAll items))
      (Plan.lowerAll o (planSlots o inside items slots ++ [])) := by
  have hParts :=
    (lowersTo_slots inside hItems hSlots).map (· ++ [])
  intro s
  rw [hParts s]
  simp only [List.append_nil]

/- The items of a sequence pattern and its spread. -/
theorem lowersTo_itemsAndSpread
    (inside : Bool)
    {items : List Checked}
    {spread : Checked}
    {slots : List Access}
    (hItems : ∀ p ∈ items, ThroughPlan o p)
    (hSpread : ThroughPlan o spread)
    (hSlots : items.length = slots.length)
    (slice : Access) :
    LowersTo
      (lowerSlots o items inside slots >>= fun parts =>
        spread.lower o inside slice >>= fun part =>
          pure (parts ++ [part]))
      (askedLast inside
        (outerGuardsOfAll items ++ spread.outerGuards))
      (Plan.lowerAll o
        (planSlots o inside items slots ++
          [spread.plan o inside slice])) := by
  have hParts := lowersTo_slots inside hItems hSlots
  have hAll := hParts.bind fun parts =>
    (hSpread inside slice).map fun part => parts ++ [part]
  intro s
  rw [hAll s]
  simp only [Plan.lowerAll_append, Plan.lowerAll, askedLast_append]

/- A pattern without parts is one test. -/
theorem lowersTo_test
    (t : Test) :
    LowersTo (pure (.ofTest t)) (askedLast inside [])
      ((Plan.test t).lower o) := by
  rw [askedLast_nil]
  exact LowersTo.pure _

/- A guard outside of alternations is put off. -/
theorem lowersTo_guarded
    (id : GuardId)
    (inner : Lowered) :
    LowersTo (Lowered.guarded false id inner) [id]
      (fun n => (inner, n)) :=
  fun _ => rfl

/- An alternation takes a number if it needs one. -/
theorem lowersTo_alternation
    (branches : List Lowered) :
    LowersTo (Lowered.alternation o branches) []
      (Lowered.join o branches) := by
  intro s
  rw [Lowered.alternation_run, List.append_nil]

/- Lowering a regular pattern goes through its plan. -/
theorem lower_eq
    (o : LoweringOptions)
    {p : Checked}
    (h : p.Regular) :
    ThroughPlan o p := by
  induction h with
  | wildcard s => exact fun _ _ => lowersTo_test _
  | literal s l =>
      intro inside a
      cases l <;> exact lowersTo_test _
  | set s hMembers => exact fun _ _ => lowersTo_test _
  | typeIs s id name => exact fun _ _ => lowersTo_test _
  | bind s x h ih =>
      intro inside a
      exact (ih inside a).map fun part =>
        { part with bindings := (x, a) :: part.bindings }
  | guarded s id h ih =>
      intro inside a
      cases inside with
      | true =>
          have hMap := (ih true a).map fun part =>
            ({ part with test := .and [part.test, .guard id] } : Lowered)
          intro st
          refine (hMap st).trans ?_
          simp [plan, Plan.lower, Plan.lowerAll,
            Lowered.conjunction, Lowered.ofTest, askedLast]
      | false => exact (ih false a).bind (lowersTo_guarded id)
  | some s h ih =>
      intro inside a
      have hMap := (ih inside (.payload a)).map fun part =>
        Lowered.conjunction [.isSome a] [part]
      intro st
      exact hMap st
  | alt s h ih =>
      intro inside a
      have hJoin := (lowersTo_branches ih a).bind
        (lowersTo_alternation (o := o))
      change LowersTo _ (askedLast inside []) _
      rw [askedLast_nil]
      exact hJoin
  | object s head h ih =>
      intro inside a
      exact lowersTo_conjunction (lowersTo_fields ih a) _
  | tuple s h ih =>
      intro inside a
      exact lowersTo_conjunction (lowersTo_tuple ih a) []
  | @seq s l fixed items spread hItems hSpread hSlots hAt hFixed
      ihItems ihSpread =>
      intro inside a
      rcases Lowered.exists_seqAccesses hFixed a with
        ⟨length, slots, slice, hAcc, hLength, hSlice⟩
      have hSame : items.length = slots.length :=
        hSlots.trans hLength.symm
      cases spread with
      | none =>
          have hAll := lowersTo_conjunction
            (lowersTo_items inside ihItems hSame)
            length.toList
          intro st
          simp only [lower, plan, hAcc]
          exact hAll st
      | some p =>
          rw [← hSlice] at hAt
          rcases Option.isSome_iff_exists.mp (hAt rfl) with ⟨c, rfl⟩
          have hAll := lowersTo_conjunction
            (lowersTo_itemsAndSpread inside ihItems
              (ihSpread p rfl) hSame c)
            length.toList
          intro st
          simp only [lower, plan, hAcc]
          exact hAll st
  | map s h ih =>
      intro inside a
      exact lowersTo_conjunction (lowersTo_entries ih a) []

end Checked

end MatchCompiler

------------------------------------------------------------
-- Arms
------------------------------------------------------------

namespace MatchCompiler

namespace CheckedArm

/- The test of an arm as lowering builds it. -/
def unsimplified
    (o : LoweringOptions)
    (a : CheckedArm) : Test :=
  let (part, s) := (a.pattern.lower o false .scrutinee).run {}
  .and (part.test :: s.guards.map Test.guard)

/- The plan of an arm: its pattern, then the guards put off. -/
def plan
    (o : LoweringOptions)
    (a : CheckedArm) : Plan :=
  .all (a.pattern.plan o false .scrutinee ::
    (a.pattern.outerGuards.map Test.guard).map Plan.test)

/- The test of a clause is the simplified test of its arm. -/
theorem clause_test
    (o : LoweringOptions)
    (a : CheckedArm)
    (arm : Nat) :
    (a.clause o arm).test = (a.unsimplified o).simplify o :=
  rfl

/- Lowering an arm is lowering its plan. -/
theorem lower_plan
    (o : LoweringOptions)
    {a : CheckedArm}
    (h : a.pattern.Regular)
    (arm : Nat) :
    ((a.plan o).lower o 0).1 =
      { test := a.unsimplified o
        bindings := (a.clause o arm).bindings } := by
  have hRun := Checked.lower_eq o h false .scrutinee {}
  have hParts :
      Plan.lowerAll o
          (a.pattern.plan o false .scrutinee ::
            (a.pattern.outerGuards.map Test.guard).map Plan.test) 0 =
        (((a.pattern.plan o false .scrutinee).lower o 0).1 ::
            (a.pattern.outerGuards.map Test.guard).map Lowered.ofTest,
          ((a.pattern.plan o false .scrutinee).lower o 0).2) := by
    simp only [Plan.lowerAll, Plan.lowerAll_tests]
  have hNames :
      ((a.pattern.outerGuards.map Test.guard).map
        Lowered.ofTest).flatMap Lowered.bindings = [] := by
    rw [List.flatMap_map]
    exact List.flatMap_eq_nil_iff.mpr fun _ _ => rfl
  simp only [plan, Plan.lower, hParts, unsimplified, clause, hRun,
    Lowered.conjunction, Checked.askedLast, List.nil_append,
    List.map_cons, List.flatMap_cons, hNames, List.append_nil]
  simp [List.map_map, Function.comp_def, Lowered.ofTest]

end CheckedArm

end MatchCompiler
