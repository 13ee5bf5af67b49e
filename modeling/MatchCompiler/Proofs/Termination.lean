import MatchCompiler.Proofs.Inheritance
import Mathlib.Data.Finset.Option
import Mathlib.Data.Finset.Prod
import Mathlib.Data.Fintype.Card

/-
  This file shows when extraction ends.

  A descriptor with a slot of its own is remembered before
  the types that it mentions are visited, and no descriptor
  is given two slots under the same arguments. If arguments
  do not depend on other arguments, then there are only as
  many lists of them as there are instances, so that only
  finitely many slots are reserved. In between only instances
  are entered. An instance is remembered when it has a slot,
  and not before: extraction ends if and only if no instance
  is met that instantiates itself, through its template and
  its arguments alone.

  Key definitions include:
    * `Ends`
    * `Extraction.Supplied`
    * `TypeTable.Instantiates`
    * `TypeTable.FreeOfCircles`
    * `Extraction.Visiting`

  Key theorems include:
    * `Extract.nested_ends`
    * `Move.visiting`
    * `Registry.extraction_ends_iff`
-/

------------------------------------------------------------
-- Programs That End
------------------------------------------------------------

namespace MatchCompiler

/- A step ends after a step that ends. -/
theorem Extract.exists_bind
    {α β : Type}
    {m : Extract α}
    {f : α → Extract β}
    {x y : Extraction}
    {a : α}
    (hFirst : m x = some (a, y))
    (hThen : ∃ b z, f a y = some (b, z)) :
    ∃ b z, (m >>= f) x = some (b, z) := by
  rcases hThen with ⟨b, z, hThen⟩
  exact ⟨b, z, Extract.bind_eq_some_iff.mpr ⟨a, y, hFirst, hThen⟩⟩

/-
  While a descriptor is looked at, a step ends in every state
  with a property.
-/
def Ends
    {α : Type}
    (t : TypeTable)
    (id : DescriptorId)
    (env : List SchemaId)
    (P : Extraction → Prop)
    (m : Extract α) : Prop :=
  ∀ x, x.Ready t id env → P x → ∃ a y, m x = some (a, y)

/- A property that no run loses. -/
def Lasting
    (t : TypeTable)
    (P : Extraction → Prop) : Prop :=
  ∀ x y, x.Bounded → x.Runs t y → P x → P y

namespace Ends

variable {α β : Type}
variable {t : TypeTable}
variable {id : DescriptorId}
variable {env : List SchemaId}
variable {P : Extraction → Prop}

theorem pure (a : α) : Ends t id env P (Pure.pure a) :=
  fun x _ _ => ⟨a, x, rfl⟩

/- A step after a step. -/
theorem bind
    {m : Extract α}
    {f : α → Extract β}
    {post : Extraction → α → Prop}
    (hm : Ends t id env P m)
    (hTraced : Traced t id env m post)
    (hLasting : Lasting t P)
    (hf : ∀ a, Ends t id env P (f a)) :
    Ends t id env P (m >>= f) := by
  intro x hReady hP
  rcases hm x hReady hP with ⟨a, y, hFirst⟩
  rcases hTraced x a y hReady hFirst with ⟨hRuns, -⟩
  exact Extract.exists_bind hFirst
    (hf a y (hReady.mono hRuns) (hLasting x y hReady.bounded hRuns hP))

/- What only looks at the state ends. -/
theorem of_forall
    {m : Extract α}
    (h : ∀ x, ∃ a y, m x = some (a, y)) :
    Ends t id env P m :=
  fun x _ _ => h x

/- What ends for a mentioned descriptor. -/
theorem mentioned
    {m : Extract α}
    {other : DescriptorId}
    (h : Ends t other env P m)
    (hMentions : t.Mentions id other) :
    Ends t id env P m :=
  fun x hReady hP => h x (hReady.mentioned hMentions) hP

/- A parameter is resolved at once. -/
theorem resolve
    {extract : DescriptorId → List SchemaId → Extract SchemaId}
    {ref : TypeRef}
    (h :
      ∀ other, ref = .described other →
        Ends t id env P (extract other env)) :
    Ends t id env P (Extract.resolve extract env ref) := by
  cases ref with
  | described other => exact h other rfl
  | parameter i =>
      refine .of_forall fun x => ?_
      simp only [Extract.resolve]
      cases env[i]? with
      | some slot => exact ⟨slot, x, rfl⟩
      | none => exact ⟨_, _, rfl⟩

end Ends

end MatchCompiler

------------------------------------------------------------
-- Schemas
------------------------------------------------------------

namespace MatchCompiler

namespace Ends

variable {t : TypeTable}
variable {extract : DescriptorId → List SchemaId → Extract SchemaId}
variable {id : DescriptorId}
variable {d : TypeDescriptor}
variable {env : List SchemaId}
variable {P : Extraction → Prop}
variable (hFollows : Follows t extract)
variable (hGet : t.get? id = some d)
variable (hLasting : Lasting t P)
variable
  (hRefs :
    ∀ ref ∈ d.shape.followed,
      Ends t id env P (Extract.resolve extract env ref))

include hFollows hGet hLasting hRefs

theorem resolveAll
    {refs : List TypeRef}
    (hMem : refs ⊆ d.shape.followed) :
    Ends t id env P (refs.mapM (Extract.resolve extract env)) := by
  induction refs with
  | nil => exact .pure []
  | cons ref refs ih =>
      rcases List.cons_subset.mp hMem with ⟨hRef, hRest⟩
      rw [List.mapM_cons]
      refine (hRefs ref hRef).bind (hFollows.resolve hGet env hRef)
        hLasting fun slot => ?_
      exact (ih hRest).bind (hFollows.resolveAll hGet env hRest) hLasting
        fun slots => .pure _

theorem fields
    {ds : List FieldDecl}
    (hTypes : ds.map FieldDecl.type ⊆ d.shape.followed)
    (position : Nat) :
    Ends t id env P (Extract.fields extract env position ds) := by
  induction ds generalizing position with
  | nil => exact .pure []
  | cons decl ds ih =>
      rcases List.cons_subset.mp hTypes with ⟨hType, hRest⟩
      refine (hRefs _ hType).bind (hFollows.resolve hGet env hType)
        hLasting fun slot => ?_
      exact (ih hRest (position + 1)).bind
        (hFollows.fields hGet env hRest (position + 1)) hLasting
        fun fs => .pure _

theorem tupleFields
    {es : List TupleElement}
    (hTypes : es.map TupleElement.type ⊆ d.shape.followed)
    (position : Nat) :
    Ends t id env P (Extract.tupleFields extract env position es) := by
  induction es generalizing position with
  | nil => exact .pure []
  | cons e es ih =>
      rcases List.cons_subset.mp hTypes with ⟨hType, hRest⟩
      refine (hRefs _ hType).bind (hFollows.resolve hGet env hType)
        hLasting fun slot => ?_
      exact (ih hRest (position + 1)).bind
        (hFollows.tupleFields hGet env hRest (position + 1)) hLasting
        fun fs => .pure _

theorem branchFields
    {branches : List BranchDecl}
    (hTypes :
      branches.flatMap (fun b => b.fields.map FieldDecl.type) ⊆
        d.shape.followed)
    (position : Nat) :
    Ends t id env P
      (Extract.branchFields extract env position branches) := by
  induction branches with
  | nil => exact .pure []
  | cons b bs ih =>
      rw [List.flatMap_cons, List.append_subset] at hTypes
      refine (fields hFollows hGet hLasting hRefs hTypes.1 position).bind
        (hFollows.fields hGet env hTypes.1 position) hLasting fun own => ?_
      exact (ih hTypes.2).bind
        (hFollows.branchFields hGet env hTypes.2 position) hLasting
        fun rest => .pure _

theorem container
    (name : String)
    {kind : Container}
    {args : List TypeRef}
    (hShape : d.shape = .container kind args) :
    Ends t id env P (Extract.container extract env name kind args) := by
  by_cases hArity : args.length = kind.arity
  · rw [Follows.container_eq env name extract hArity]
    have hArgs : args ⊆ d.shape.followed := by
      rw [hShape, Shape.followed, if_pos hArity]
      exact List.Subset.refl _
    exact (resolveAll hFollows hGet hLasting hRefs hArgs).bind
      (hFollows.resolveAll hGet env hArgs) hLasting fun slots => .pure _
  · rw [Follows.container_of_misfit env name extract hArity]
    exact .pure _

theorem inherit
    (name : String)
    {o : ObjectShape}
    (hShape : d.shape = .object o) :
    Ends t id env P (Extract.inherit extract env name o) := by
  unfold Extract.inherit
  split
  · exact .pure _
  · rename_i base hBase
    have hRef := Shape.base_mem_followed hShape hBase
    refine (hRefs base hRef).bind (hFollows.resolve hGet env hRef)
      hLasting fun source => ?_
    exact .of_forall fun x => ⟨_, x, rfl⟩

theorem variant
    {o : ObjectShape}
    {v : VariantPart}
    (hShape : d.shape = .object o)
    (hVariant : o.variant = some v)
    (s : Schema) :
    Ends t id env P (Extract.variant extract env d.origin s v) := by
  rcases List.cons_subset.mp
      (Shape.variant_subset_followed hShape hVariant) with
    ⟨hType, hBranches⟩
  refine (hRefs _ hType).bind (hFollows.resolve hGet env hType) hLasting
    fun slot => ?_
  refine Ends.bind (.of_forall fun x => ⟨_, x, rfl⟩) Traced.pool hLasting
    fun p => ?_
  refine (branchFields hFollows hGet hLasting hRefs hBranches _).bind
    (hFollows.branchFields hGet env hBranches _) hLasting fun added => ?_
  exact .of_forall fun x => ⟨_, x, rfl⟩

theorem object
    (name : String)
    {o : ObjectShape}
    (hShape : d.shape = .object o) :
    Ends t id env P (Extract.object extract env name d.origin o) := by
  have hFields := Shape.fields_subset_followed hShape
  refine (inherit hFollows hGet hLasting hRefs name hShape).bind
    (hFollows.inherit hGet env name hShape) hLasting fun s => ?_
  refine (fields hFollows hGet hLasting hRefs hFields _).bind
    (hFollows.fields hGet env hFields _) hLasting fun own => ?_
  cases hVariant : o.variant with
  | none => exact .pure _
  | some v =>
      exact (variant hFollows hGet hLasting hRefs hShape hVariant _).bind
        (hFollows.variant hGet env hShape hVariant _) hLasting
        fun s => .pure _

theorem ofShape
    (slot : SchemaId)
    (name : String) :
    Ends t id env P (Extract.ofShape extract env id d slot name) := by
  have hView :
      ∀ (kind : ViewKind) {target : TypeRef},
        d.shape = kind.shape target →
        Ends t id env P
          (Extract.resolve extract env target >>= fun source =>
            Extract.view kind slot source name id) := by
    intro kind target hShape
    have hRef : target ∈ d.shape.followed := by
      rw [hShape]
      cases kind <;> exact List.mem_singleton_self target
    refine (hRefs target hRef).bind (hFollows.resolve hGet env hRef)
      hLasting fun source => .of_forall fun x => ?_
    exact ⟨_, _, Extract.view_eq kind slot source name id x⟩
  unfold Extract.ofShape
  split
  · exact .pure _
  · rename_i hShape
    exact hView .alias hShape
  · rename_i hShape
    exact hView .reference hShape
  · rename_i hShape
    exact container hFollows hGet hLasting hRefs name hShape
  · rename_i hShape
    exact object hFollows hGet hLasting hRefs name hShape
  · rename_i elements hShape
    have hTypes :
        elements.map TupleElement.type ⊆ d.shape.followed := by
      rw [hShape]
      exact List.Subset.refl _
    exact (tupleFields hFollows hGet hLasting hRefs hTypes 0).bind
      (hFollows.tupleFields hGet env hTypes 0) hLasting
      fun fields => .pure _
  · exact .pure _
  · exact .pure _
  · exact .pure _

theorem build
    (slot : SchemaId) :
    Ends t id env P (Extract.build extract env id d slot) := by
  intro x hReady hP
  have hName := Extract.instanceName_eq d env x
  rcases ofShape hFollows hGet hLasting hRefs slot _ x hReady hP with
    ⟨s, y, hShape⟩
  exact Extract.exists_bind hName (Extract.exists_bind hShape ⟨_, y, rfl⟩)

end Ends

end MatchCompiler

------------------------------------------------------------
-- Supplied Arguments
------------------------------------------------------------

namespace MatchCompiler

namespace TypeTable

/- No argument of an instance mentions a parameter. -/
def FixedArguments (t : TypeTable) : Prop :=
  ∀ id d template args, t.get? id = some d →
    d.shape = .generic template args →
    ∀ ref ∈ args, ∃ other, ref = .described other ∧
      t.mentionsParams other = false

/- An instance mentions its template or an argument. -/
def Instantiates
    (t : TypeTable)
    (id other : DescriptorId) : Prop :=
  ¬ t.IsConcrete id ∧ t.Mentions id other

/-
  No instance that is mentioned, directly or through others,
  instantiates itself.
-/
def FreeOfCircles
    (t : TypeTable)
    (id : DescriptorId) : Prop :=
  ∀ other, t.Reaches id other →
    ¬ Relation.TransGen t.Instantiates other other

variable {t : TypeTable}
variable {id other : DescriptorId}

theorem Instantiates.exists_generic
    (h : t.Instantiates id other) :
    ∃ d template args, t.get? id = some d ∧
      d.shape = .generic template args ∧
      .described other ∈ TypeRef.described template :: args := by
  rcases h with ⟨hGeneric, d, hGet, hMem⟩
  cases hShape : d.shape with
  | generic template args =>
      rw [hShape] at hMem
      exact ⟨d, template, args, hGet, hShape, hMem⟩
  | _ =>
      refine absurd ⟨d, hGet, fun template args hEq => ?_⟩ hGeneric
      cases hShape.symm.trans hEq

theorem instantiates_of_mem
    {d : TypeDescriptor}
    {template : DescriptorId}
    {args : List TypeRef}
    (hGet : t.get? id = some d)
    (hShape : d.shape = .generic template args)
    (hMem : .described other ∈ TypeRef.described template :: args) :
    t.Instantiates id other := by
  refine ⟨?_, d, hGet, hShape ▸ hMem⟩
  rintro ⟨d', hGet', hConcrete⟩
  cases hGet.symm.trans hGet'
  exact hConcrete template args hShape

/- Instances are descriptors of the table. -/
theorem Instantiates.lt
    (h : t.Instantiates id other) :
    id < t.size := by
  rcases h with ⟨-, d, hGet, -⟩
  exact isSome_get?_iff.mp (hGet ▸ rfl)

theorem FreeOfCircles.mentioned
    (h : t.FreeOfCircles id)
    (hMentions : t.Mentions id other) :
    t.FreeOfCircles other :=
  fun last hReaches => h last (.head hMentions hReaches)

end TypeTable

namespace Registry

/-
  Arguments are supplied by an instance, or there are none
  where extraction starts.
-/
inductive Supplies
    (t : TypeTable)
    (r : Registry) : Option DescriptorId → List SchemaId → Prop
| start : Supplies t r none []
| instance
    {id : DescriptorId}
    {d : TypeDescriptor}
    {template : DescriptorId}
    {args : List TypeRef}
    {slots : List SchemaId}
    (hGet : t.get? id = some d)
    (hShape : d.shape = .generic template args)
    (hArgs : List.Forall₂ (r.Finds t []) args slots) :
    Supplies t r (some id) slots

/- A descriptor is remembered under supplied arguments. -/
def Entered
    (t : TypeTable)
    (r : Registry)
    (p : DescriptorId × Option DescriptorId) : Prop :=
  ∃ env slot, r.Supplies t p.2 env ∧ r.Finds t env (.described p.1) slot

open Classical in
/- What may still be entered. -/
noncomputable def unentered
    (t : TypeTable)
    (r : Registry) : Finset (DescriptorId × Option DescriptorId) :=
  (Finset.range t.size ×ˢ (Finset.range t.size).insertNone).filter
    fun p => ¬ r.Entered t p

variable {t : TypeTable}
variable {r r' : Registry}
variable {origin : Option DescriptorId}
variable {env : List SchemaId}

theorem mem_unentered_iff
    {p : DescriptorId × Option DescriptorId} :
    p ∈ r.unentered t ↔
      (p.1 ∈ Finset.range t.size ∧
        p.2 ∈ (Finset.range t.size).insertNone) ∧
      ¬ r.Entered t p := by
  classical
  simp only [unentered, Finset.mem_filter, Finset.mem_product]

theorem Supplies.mono
    (h : r.Supplies t origin env)
    (hRecalls : r.Recalls r') :
    r'.Supplies t origin env := by
  cases h with
  | start => exact .start
  | «instance» hGet hShape hArgs =>
      exact .instance hGet hShape
        (hArgs.imp fun _ _ hFinds => hFinds.mono hRecalls)

/- Only one list of arguments is supplied by an instance. -/
theorem Supplies.unique
    {env' : List SchemaId}
    (h : r.Supplies t origin env)
    (h' : r.Supplies t origin env') :
    env = env' := by
  cases h with
  | start =>
      cases h'
      rfl
  | «instance» hGet hShape hArgs =>
      cases h' with
      | «instance» hGet' hShape' hArgs' =>
          cases hGet.symm.trans hGet'
          cases hShape.symm.trans hShape'
          exact Finds.all_unique hArgs hArgs'

/- The supplier is a descriptor of the table. -/
theorem Supplies.origin_mem
    (h : r.Supplies t origin env) :
    origin ∈ (Finset.range t.size).insertNone := by
  cases h with
  | start => exact Finset.none_mem_insertNone
  | «instance» hGet _ _ =>
      exact Finset.some_mem_insertNone.mpr
        (Finset.mem_range.mpr (TypeTable.isSome_get?_iff.mp (hGet ▸ rfl)))

/- What has been entered is not entered again. -/
theorem unentered_subset
    (hRecalls : r.Recalls r') :
    r'.unentered t ⊆ r.unentered t := by
  intro p hMem
  rcases mem_unentered_iff.mp hMem with ⟨hIn, hNot⟩
  refine mem_unentered_iff.mpr ⟨hIn, fun hEntered => hNot ?_⟩
  rcases hEntered with ⟨env, slot, hSupplies, hFinds⟩
  exact ⟨env, slot, hSupplies.mono hRecalls, hFinds.mono hRecalls⟩

/- To remember a new key leaves less to enter. -/
theorem card_unentered_lt
    {id : DescriptorId}
    {d : TypeDescriptor}
    {key : ExtractionKey}
    {slot : SchemaId}
    (hSupplies : r.Supplies t origin env)
    (hGet : t.get? id = some d)
    (hKey : r.IsKey id env key)
    (hNone : r.cache.lookup key = none)
    (hRecalls : r.Recalls r')
    (hFinds : r'.Finds t env (.described id) slot) :
    (r'.unentered t).card < (r.unentered t).card := by
  have hEntered : r'.Entered t (id, origin) :=
    ⟨env, slot, hSupplies.mono hRecalls, hFinds⟩
  have hNew : ¬ r.Entered t (id, origin) := by
    rintro ⟨env', slot', hSupplies', hFinds'⟩
    cases hSupplies.unique hSupplies'
    rcases hKey with ⟨b, hMemo, rfl⟩
    cases hFinds' with
    | known hGet' hMemo' hCache =>
        cases hMemo.symm.trans hMemo'
        cases hNone.symm.trans hCache
    | dangling hGet' => cases hGet.symm.trans hGet'
  have hLt : id ∈ Finset.range t.size :=
    Finset.mem_range.mpr (TypeTable.isSome_get?_iff.mp (hGet ▸ rfl))
  refine Finset.card_lt_card ((Finset.ssubset_iff_of_subset
    (unentered_subset hRecalls)).mpr ⟨(id, origin), ?_, fun hMem => ?_⟩)
  · exact mem_unentered_iff.mpr ⟨⟨hLt, hSupplies.origin_mem⟩, hNew⟩
  · exact (mem_unentered_iff.mp hMem).2 hEntered

/- At first, each descriptor may be entered from each origin. -/
theorem card_unentered_le
    (t : TypeTable)
    (r : Registry) :
    (r.unentered t).card ≤ t.size * (t.size + 1) := by
  classical
  refine (Finset.card_filter_le _ _).trans_eq ?_
  rw [Finset.card_product, Finset.card_insertNone, Finset.card_range]

end Registry

end MatchCompiler

------------------------------------------------------------
-- Extractions That End
------------------------------------------------------------

namespace MatchCompiler

namespace Extraction

/-
  The arguments come from an origin, and no more than a
  number of descriptors are left to enter.
-/
structure Supplied
    (t : TypeTable)
    (origin : Option DescriptorId)
    (env : List SchemaId)
    (left : Nat)
    (x : Extraction) : Prop where
  coherent : x.registry.Coherent t
  supplies : x.registry.Supplies t origin env
  card_le : (x.registry.unentered t).card ≤ left

variable {t : TypeTable}
variable {x y : Extraction}

theorem Runs.coherent
    (h : x.Runs t y)
    (hBounded : x.Bounded)
    (hCoherent : x.registry.Coherent t) :
    y.registry.Coherent t :=
  (h.invariant (P := fun z => z.Bounded ∧ z.registry.Coherent t)
    (fun hMove hBefore =>
      ⟨hMove.bounded hBefore.1, hMove.coherent hBefore.1 hBefore.2⟩)
    ⟨hBounded, hCoherent⟩).2

theorem lasting_supplied
    (t : TypeTable)
    (origin : Option DescriptorId)
    (env : List SchemaId)
    (left : Nat) :
    Lasting t (Supplied t origin env left) := by
  intro x y hBounded hRuns h
  have hRecalls := hRuns.grows.registry.recalls
  refine ⟨hRuns.coherent hBounded h.coherent,
    h.supplies.mono hRecalls, ?_⟩
  exact (Finset.card_le_card (Registry.unentered_subset hRecalls)).trans
    h.card_le

end Extraction

/- Arguments that mention no parameter are found anywhere. -/
theorem TypeTable.FixedArguments.finds
    {t : TypeTable}
    {r : Registry}
    {id : DescriptorId}
    {d : TypeDescriptor}
    {template : DescriptorId}
    {args : List TypeRef}
    {env slots : List SchemaId}
    (hFixed : t.FixedArguments)
    (hCoherent : r.Coherent t)
    (hGet : t.get? id = some d)
    (hShape : d.shape = .generic template args)
    (hArgs : List.Forall₂ (r.Finds t env) args slots) :
    r.Supplies t (some id) slots := by
  have hAll := hFixed id d template args hGet hShape
  refine .instance hGet hShape ?_
  clear hShape
  induction hArgs with
  | nil => exact .nil
  | cons hFirst _ ih =>
      rcases List.forall_mem_cons.mp hAll with ⟨⟨other, rfl, hNone⟩, hRest⟩
      refine .cons ?_ (ih hRest)
      cases hFirst with
      | known hGet' hMemo hCache =>
          cases (hCoherent.memo other _ hMemo).trans hNone
          exact .known hGet' hMemo hCache
      | dangling hGet' hUnknown => exact .dangling hGet' hUnknown

namespace Extract

variable {t : TypeTable}
variable {extract : DescriptorId → List SchemaId → Extract SchemaId}
variable {id : DescriptorId}
variable {d : TypeDescriptor}
variable {env : List SchemaId}
variable {origin : Option DescriptorId}
variable {left : Nat}

/- A slot is assigned if the schema for it can be built. -/
theorem assign_ends
    (hConcrete : ∀ template args, d.shape ≠ .generic template args)
    {key : ExtractionKey}
    {x : Extraction}
    (hBuild :
      ∃ s y, build extract env id d x.registry.pool.size
        (x.reserved key d.name) = some (s, y)) :
    ∃ slot y, assign extract env id d key x = some (slot, y) := by
  rcases hBuild with ⟨s, y, hBuild⟩
  generalize hProgram : assign extract env id d key = program
  unfold assign at hProgram
  split at hProgram <;> subst hProgram
  · rename_i template args hShape
    exact absurd hShape (hConcrete template args)
  · exact exists_bind rfl (exists_bind rfl (exists_bind hBuild ⟨_, _, rfl⟩))

/-
  A descriptor is given a slot if all that it mentions can be
  extracted with less to enter.
-/
theorem slot_ends
    (hFollows : Follows t extract)
    (hGet : t.get? id = some d)
    (hConcrete : ∀ template args, d.shape ≠ .generic template args)
    (hRefs :
      ∀ less < left, ∀ ref ∈ d.shape.followed,
        Ends t id env (Extraction.Supplied t origin env less)
          (resolve extract env ref))
    {key : ExtractionKey}
    {x : Extraction}
    (hReady : x.Ready t id env)
    (hSupplied : x.Supplied t origin env left)
    (hKey : x.registry.IsKey id env key)
    (hNone : x.registry.cache.lookup key = none) :
    ∃ slot y, assign extract env id d key x = some (slot, y) := by
  have hMove : Move t x (x.reserved key d.name) :=
    .reserve hGet hConcrete hKey hNone hReady.env
  have hRecalls := hMove.recalls hSupplied.coherent
  have hFinds :
      (x.reserved key d.name).registry.Finds t env (.described id)
        x.registry.pool.size := by
    rcases hKey with ⟨b, hMemo, rfl⟩
    exact .known hGet (hRecalls.parametric _ _ hMemo) List.lookup_cons_self
  have hLess :=
    Nat.lt_of_lt_of_le
      (Registry.card_unentered_lt hSupplied.supplies hGet hKey hNone hRecalls
        hFinds)
      hSupplied.card_le
  have hBuild :=
    Ends.build hFollows hGet
      (Extraction.lasting_supplied t origin env _)
      (hRefs _ hLess) x.registry.pool.size _
      (hReady.reserved hGet hConcrete hKey hNone)
      ⟨hMove.coherent hReady.bounded hSupplied.coherent,
        hSupplied.supplies.mono hRecalls, Nat.le_refl _⟩
  exact assign_ends hConcrete hBuild

/-
  An instance has a slot if its arguments and, under these,
  its template can be extracted.
-/
theorem generic_ends
    (hFollows : Follows t extract)
    (hFixed : t.FixedArguments)
    (hGet : t.get? id = some d)
    {template : DescriptorId}
    {args : List TypeRef}
    (hShape : d.shape = .generic template args)
    (hRefs :
      ∀ ref ∈ d.shape.followed,
        Ends t id env (Extraction.Supplied t origin env left)
          (resolve extract env ref))
    (hTemplate :
      ∀ slots,
        Ends t template slots
          (Extraction.Supplied t (some id) slots left)
          (extract template slots))
    {key : ExtractionKey}
    {x : Extraction}
    (hReady : x.Ready t id env)
    (hSupplied : x.Supplied t origin env left) :
    ∃ slot y, assign extract env id d key x = some (slot, y) := by
  have hMem : args ⊆ d.shape.followed := by
    rw [hShape]
    exact List.subset_cons_self _ _
  have hLasting := Extraction.lasting_supplied t origin env left
  rcases Ends.resolveAll hFollows hGet hLasting hRefs hMem x hReady
      hSupplied with ⟨slots, y, hSlots⟩
  rcases hFollows.resolveAll hGet env hMem x slots y hReady hSlots with
    ⟨hRuns, hFinds⟩
  have hSuppliedY := hLasting x y hReady.bounded hRuns hSupplied
  rcases hTemplate slots y ((hReady.mono hRuns).template hGet hShape hFinds)
      ⟨hSuppliedY.coherent,
        hFixed.finds hSuppliedY.coherent hGet hShape hFinds,
        hSuppliedY.card_le⟩ with ⟨slot, z, hSlot⟩
  generalize hProgram : assign extract env id d key = program
  unfold assign at hProgram
  split at hProgram <;> subst hProgram
  · rename_i hShape'
    cases hShape.symm.trans hShape'
    exact exists_bind hSlots (exists_bind hSlot ⟨_, _, rfl⟩)
  · rename_i hConcrete
    exact absurd hShape (hConcrete template args)

/- A descriptor has a slot if one can be assigned to it. -/
theorem step_ends
    {P : Extraction → Prop}
    (hLasting : Lasting t P)
    (hAssign :
      ∀ d key x, t.get? id = some d → x.Ready t id env → P x →
        x.registry.IsKey id env key → x.registry.cache.lookup key = none →
        ∃ slot y, assign extract env id d key x = some (slot, y)) :
    Ends t id env P (step t extract id env) := by
  unfold step
  cases hGet : t.get? id with
  | none => exact .of_forall fun x => ⟨_, _, rfl⟩
  | some d =>
      intro x hReady hP
      have hMemo : ∃ b u, isParametric t id x = some (b, u) := by
        cases hKnown : x.registry.parametric.lookup id with
        | some known => exact ⟨known, x, isParametric_of_known t hKnown⟩
        | none => exact ⟨_, _, isParametric_of_new t hKnown⟩
      rcases hMemo with ⟨b, u, hMemo⟩
      rcases Traced.isParametric t id env x b u hReady hMemo with
        ⟨hRuns, hParametric⟩
      let key : ExtractionKey := ⟨id, if b then env else []⟩
      have hKey : u.registry.IsKey id env key := ⟨b, hParametric, rfl⟩
      refine exists_bind hMemo (exists_bind rfl ?_)
      cases hFound : u.registry.cache.lookup key with
      | some slot => exact ⟨slot, _, rfl⟩
      | none =>
          have hRuns' := hRuns.trans (u.runs_missed t)
          have hAssigned := hAssign d key u.missed hGet
            (hReady.mono hRuns') (hLasting x _ hReady.bounded hRuns' hP)
            hKey hFound
          exact exists_bind rfl hAssigned

/-
  Nesting that suffices if a number of descriptors are left
  to enter. The path holds the instances that lead to the
  descriptor one after the other; it starts anew below a
  descriptor with a slot of its own.
-/
theorem nested_ends
    (hFixed : t.FixedArguments)
    (depth : Nat)
    (path : List DescriptorId)
    (hFree : t.FreeOfCircles id)
    (hPath : ∀ i ∈ path, Relation.TransGen t.Instantiates i id)
    (hOnce : path.Nodup)
    (hIn : path ⊆ List.range t.size)
    (hDepth : left * (t.size + 1) + (t.size - path.length) < depth) :
    Ends t id env (Extraction.Supplied t origin env left)
      (nested t depth id env) := by
  induction depth generalizing id env origin left path with
  | zero => exact absurd hDepth (Nat.not_lt_zero _)
  | succ depth ih =>
      have hFollows := follows_nested t depth
      refine step_ends (Extraction.lasting_supplied t origin env left) ?_
      intro d key x hGet hReady hSupplied hKey hNone
      by_cases hConcrete :
          ∀ template args, d.shape ≠ .generic template args
      · -- Less is left, whatever the path is.
        refine slot_ends hFollows hGet hConcrete ?_ hReady hSupplied hKey
          hNone
        intro less hLess ref hRef
        refine .resolve fun other hOther => ?_
        have hMentions : t.Mentions id other := ⟨d, hGet, hOther ▸ hRef⟩
        refine (ih [] (hFree.mentioned hMentions) nofun .nil nofun
          ?_).mentioned hMentions
        have hRoom : (less + 1) * (t.size + 1) ≤ left * (t.size + 1) :=
          Nat.mul_le_mul_right _ hLess
        rw [Nat.succ_mul] at hRoom
        simp only [List.length_nil]
        omega
      · push Not at hConcrete
        rcases hConcrete with ⟨template, args, hShape⟩
        -- The instance is on no circle, so that the path grows.
        have hLonger :
            ∀ other,
              .described other ∈ TypeRef.described template :: args →
              ∀ origin env,
                Ends t other env (Extraction.Supplied t origin env left)
                  (nested t depth other env) := by
          intro other hMem origin env
          have hStep := TypeTable.instantiates_of_mem hGet hShape hMem
          have hNew : id ∉ path :=
            fun hBefore => hFree id .refl (hPath id hBefore)
          have hOnce' : (id :: path).Nodup :=
            List.nodup_cons.mpr ⟨hNew, hOnce⟩
          have hIn' : id :: path ⊆ List.range t.size :=
            List.cons_subset.mpr ⟨List.mem_range.mpr hStep.lt, hIn⟩
          have hLength : (id :: path).length ≤ t.size := by
            simpa using (hOnce'.subperm hIn').length_le
          refine ih (id :: path) (hFree.mentioned hStep.2) ?_ hOnce' hIn' ?_
          · intro i hi
            rcases List.mem_cons.mp hi with rfl | hi
            · exact .single hStep
            · exact (hPath i hi).tail hStep
          · rw [List.length_cons] at hLength ⊢
            omega
        refine generic_ends hFollows hFixed hGet hShape ?_ ?_ hReady
          hSupplied
        · intro ref hRef
          refine .resolve fun other hOther => ?_
          rw [hShape] at hRef
          have hMem := hOther ▸ hRef
          exact (hLonger other hMem origin env).mentioned
            (TypeTable.instantiates_of_mem hGet hShape hMem).2
        · exact fun slots =>
            hLonger template List.mem_cons_self (some id) slots

end Extract

end MatchCompiler

------------------------------------------------------------
-- What Is Visited
------------------------------------------------------------

namespace MatchCompiler

section

variable {t : TypeTable}
variable {r : Registry}
variable {env : List SchemaId}

theorem Registry.Finds.all_found
    {refs : List TypeRef}
    {slots : List SchemaId}
    (h : List.Forall₂ (r.Finds t env) refs slots) :
    ∀ ref ∈ refs, ∃ slot, r.Finds t env ref slot := by
  induction h with
  | nil => exact nofun
  | cons hFirst _ ih => exact List.forall_mem_cons.mpr ⟨⟨_, hFirst⟩, ih⟩

theorem Gives.found
    {position : Nat}
    {ds : List FieldDecl}
    {fs : List Field}
    (h : Gives t r env position ds fs) :
    ∀ ref ∈ ds.map FieldDecl.type, ∃ slot, r.Finds t env ref slot := by
  induction h with
  | nil => exact List.forall_mem_nil _
  | cons hSlot _ ih => exact List.forall_mem_cons.mpr ⟨⟨_, hSlot⟩, ih⟩

theorem GivesBranches.found
    {position : Nat}
    {branches : List BranchDecl}
    {added : List (BranchSelector × List Field)}
    (h : GivesBranches t r env position branches added) :
    ∀ ref ∈ branches.flatMap (fun b => b.fields.map FieldDecl.type),
      ∃ slot, r.Finds t env ref slot := by
  induction h with
  | nil => exact List.forall_mem_nil _
  | cons hFirst _ ih =>
      rw [List.flatMap_cons]
      exact List.forall_mem_append.mpr ⟨hFirst.2.found, ih⟩

theorem BuiltObject.found
    {name : String}
    {origin : Origin}
    {o : ObjectShape}
    {s : Schema}
    (h : BuiltObject t r env name origin o s) :
    ∀ ref ∈ o.refs, ∃ slot, r.Finds t env ref slot := by
  have hBase :
      ∀ {s : Schema}, Starts t r env name o s →
        ∀ ref ∈ o.base.toList, ∃ slot, r.Finds t env ref slot := by
    intro s hStart
    cases hStart with
    | root hBase => simp [hBase]
    | derived hBase hSource _ =>
        rw [hBase]
        exact List.forall_mem_singleton.mpr ⟨_, hSource⟩
  cases h with
  | plain hStart hOwn hVariant =>
      simp only [ObjectShape.refs, hVariant]
      refine List.forall_mem_append.mpr ⟨?_, List.forall_mem_nil _⟩
      exact List.forall_mem_append.mpr ⟨hBase hStart, hOwn.found⟩
  | variant hStart hOwn hVariant hVaries =>
      simp only [ObjectShape.refs, hVariant]
      refine List.forall_mem_append.mpr ⟨?_, ?_⟩
      · exact List.forall_mem_append.mpr ⟨hBase hStart, hOwn.found⟩
      · cases hVaries with
        | mk hSlot _ hAdded _ =>
            exact List.forall_mem_cons.mpr ⟨⟨_, hSlot⟩, hAdded.found⟩

end

theorem tupleDecls_types
    (position : Nat)
    (es : List TupleElement) :
    (tupleDecls position es).map FieldDecl.type =
      es.map TupleElement.type := by
  induction es generalizing position with
  | nil => rfl
  | cons e es ih => simp [tupleDecls, ih]

/- What a schema is built from has been found. -/
theorem Built.found
    {t : TypeTable}
    {x : Extraction}
    {env : List SchemaId}
    {id : DescriptorId}
    {origin : Origin}
    {slot : SchemaId}
    {name : String}
    {shape : Shape}
    {s : Schema}
    {noted : List View}
    (h : Built t x env id origin slot name shape s noted) :
    ∀ ref ∈ shape.followed, ∃ slot, x.registry.Finds t env ref slot := by
  cases h with
  | primitive kind => exact List.forall_mem_nil _
  | enumeration members => exact List.forall_mem_nil _
  | unknown => exact List.forall_mem_nil _
  | container hArity hArgs =>
      simp only [Shape.followed, if_pos hArity]
      exact Registry.Finds.all_found hArgs
  | misfit hArity =>
      simp only [Shape.followed, if_neg hArity]
      exact List.forall_mem_nil _
  | tuple hFields =>
      have hFound := hFields.found
      rw [tupleDecls_types] at hFound
      exact hFound
  | object hObject => exact hObject.found
  | @view kind target _ _ _ hShape hSource _ =>
      subst hShape
      cases kind <;>
        exact List.forall_mem_singleton.mpr ⟨_, hSource⟩

/-
  What is remembered has been visited: all that it mentions
  is remembered, unless it has a slot that is not filled, and
  it is no instance of itself.
-/
structure Extraction.Visiting
    (t : TypeTable)
    (x : Extraction) : Prop where
  bounded : x.Bounded
  coherent : x.registry.Coherent t
  mentions :
    ∀ key slot other, x.registry.cache.lookup key = some slot →
      (t.IsConcrete key.descriptor → slot ∉ x.pending) →
      t.Mentions key.descriptor other → other < t.size →
      ∃ key' slot', key'.descriptor = other ∧
        x.registry.cache.lookup key' = some slot'
  circles :
    ∀ key slot, x.registry.cache.lookup key = some slot →
      ¬ Relation.TransGen t.Instantiates key.descriptor key.descriptor

/- A descriptor of the table that is found is remembered. -/
theorem Registry.Finds.exists_key
    {t : TypeTable}
    {r : Registry}
    {env : List SchemaId}
    {id : DescriptorId}
    {slot : SchemaId}
    (h : r.Finds t env (.described id) slot)
    (hLt : id < t.size) :
    ∃ key, key.descriptor = id ∧ r.cache.lookup key = some slot := by
  cases h with
  | known _ _ hCache => exact ⟨_, rfl, hCache⟩
  | dangling hGet =>
      have hSome := TypeTable.isSome_get?_iff.mpr hLt
      rw [hGet] at hSome
      cases hSome

namespace Extraction.Visiting

variable {t : TypeTable}
variable {x y : Extraction}

/- A key is added whose descriptor has been visited. -/
theorem of_cons
    (h : x.Visiting t)
    (hBounded : y.Bounded)
    (hCoherent : y.registry.Coherent t)
    (hRecalls : x.registry.Recalls y.registry)
    {key : ExtractionKey}
    {slot : SchemaId}
    (hCache : y.registry.cache = (key, slot) :: x.registry.cache)
    (hPending : x.pending ⊆ y.pending)
    (hMentions :
      (t.IsConcrete key.descriptor → slot ∉ y.pending) →
      ∀ other, t.Mentions key.descriptor other → other < t.size →
      ∃ key' slot', key'.descriptor = other ∧
        y.registry.cache.lookup key' = some slot')
    (hCircle :
      ¬ Relation.TransGen t.Instantiates key.descriptor key.descriptor) :
    y.Visiting t := by
  refine ⟨hBounded, hCoherent, ?_, ?_⟩
  · intro key' slot' other hFound hFilled hMentioned hLt
    rw [hCache, List.lookup_cons] at hFound
    split at hFound
    · rename_i hEq
      cases beq_iff_eq.mp hEq
      cases hFound
      exact hMentions hFilled other hMentioned hLt
    · rcases h.mentions key' slot' other hFound
          (fun hConcrete hMem => hFilled hConcrete (hPending hMem))
          hMentioned hLt with ⟨key'', slot'', hOther, hFound''⟩
      exact ⟨key'', slot'', hOther, hRecalls.cache _ _ hFound''⟩
  · intro key' slot' hFound
    rw [hCache, List.lookup_cons] at hFound
    split at hFound
    · rename_i hEq
      cases beq_iff_eq.mp hEq
      exact hCircle
    · exact h.circles key' slot' hFound

/- A slot of its own is filled from what has been found. -/
theorem of_fill
    (h : x.Visiting t)
    (hBounded : y.Bounded)
    (hCoherent : y.registry.Coherent t)
    (hCache : y.registry.cache = x.registry.cache)
    {key : ExtractionKey}
    {slot : SchemaId}
    (hSlot : x.registry.cache.lookup key = some slot)
    (hConcrete : t.IsConcrete key.descriptor)
    (hPending : ∀ other ∈ x.pending, other ≠ slot → other ∈ y.pending)
    (hMentions :
      ∀ other, t.Mentions key.descriptor other → other < t.size →
      ∃ key' slot', key'.descriptor = other ∧
        x.registry.cache.lookup key' = some slot') :
    y.Visiting t := by
  refine ⟨hBounded, hCoherent, ?_, hCache ▸ h.circles⟩
  intro key' slot' other hFound hFilled hMentioned hLt
  rw [hCache] at hFound ⊢
  by_cases hSame : slot' = slot ∧ t.IsConcrete key'.descriptor
  · rcases hSame with ⟨rfl, hConcrete'⟩
    cases h.coherent.own key key' slot' hSlot hFound hConcrete hConcrete'
    exact hMentions other hMentioned hLt
  · refine h.mentions key' slot' other hFound ?_ hMentioned hLt
    intro hConcrete' hMem
    exact hFilled hConcrete' (hPending slot' hMem
      fun hEq => hSame ⟨hEq, hConcrete'⟩)

end Extraction.Visiting

/- A move visits what it has to. -/
theorem Move.visiting
    {t : TypeTable}
    {x y : Extraction}
    (hMove : Move t x y)
    (h : x.Visiting t) :
    y.Visiting t := by
  have hBounded := hMove.bounded h.bounded
  have hCoherent := hMove.coherent h.bounded h.coherent
  have hRecalls := hMove.recalls h.coherent
  cases hMove with
  | memo => exact ⟨hBounded, hCoherent, h.mentions, h.circles⟩
  | hit => exact ⟨hBounded, hCoherent, h.mentions, h.circles⟩
  | miss => exact ⟨hBounded, hCoherent, h.mentions, h.circles⟩
  | unknown => exact ⟨hBounded, hCoherent, h.mentions, h.circles⟩
  | @reserve id d env key hGet hGeneric hKey hNone =>
      have hConcrete : t.IsConcrete key.descriptor :=
        ⟨d, hKey.descriptor_eq ▸ hGet, hGeneric⟩
      refine h.of_cons hBounded hCoherent hRecalls rfl
        (List.subset_cons_self _ _) ?_ ?_
      · exact fun hFilled =>
          absurd List.mem_cons_self (hFilled hConcrete)
      · intro hCircle
        rcases Relation.TransGen.head'_iff.mp hCircle with ⟨_, hStep, -⟩
        exact hStep.1 hConcrete
  | @remember id d env key template args slots slot hGet hGeneric hKey
      hArgs hTemplate =>
      -- The template and the arguments are remembered already.
      have hFound :
          ∀ other, .described other ∈ TypeRef.described template :: args →
            other < t.size → ∃ key' slot', key'.descriptor = other ∧
              x.registry.cache.lookup key' = some slot' := by
        intro other hMem hLt
        rcases List.mem_cons.mp hMem with hEq | hMem
        · cases hEq
          rcases hTemplate.exists_key hLt with ⟨key', hKey', hCache⟩
          exact ⟨key', slot, hKey', hCache⟩
        · rcases Registry.Finds.all_found hArgs _ hMem with ⟨slot', hFinds⟩
          rcases hFinds.exists_key hLt with ⟨key', hKey', hCache⟩
          exact ⟨key', slot', hKey', hCache⟩
      refine h.of_cons hBounded hCoherent hRecalls rfl
        (List.Subset.refl _) ?_ ?_
      · intro _ other hMentions hLt
        rw [hKey.descriptor_eq] at hMentions
        rcases hMentions with ⟨d', hGet', hMem⟩
        cases hGet.symm.trans hGet'
        rw [hGeneric] at hMem
        rcases hFound other hMem hLt with ⟨key', slot', hOther, hCache⟩
        exact ⟨key', slot', hOther, hRecalls.cache _ _ hCache⟩
      · rw [hKey.descriptor_eq]
        intro hCircle
        rcases Relation.TransGen.head'_iff.mp hCircle with
          ⟨other, hStep, hBack⟩
        have hAround : Relation.TransGen t.Instantiates other other :=
          .tail' hBack hStep
        rcases Relation.TransGen.head'_iff.mp hAround with ⟨_, hNext, -⟩
        rcases hStep.exists_generic with
          ⟨d', template', args', hGet', hShape', hMem⟩
        cases hGet.symm.trans hGet'
        cases hGeneric.symm.trans hShape'
        rcases hFound other hMem hNext.lt with ⟨key', slot', rfl, hCache⟩
        exact h.circles key' slot' hCache hAround
  | @fill id d env key slot rest name s noted hGet hKey hSlot hPending
      hStacked hEnv hName hBuilt =>
      have hConcrete : t.IsConcrete key.descriptor :=
        ⟨d, hKey.descriptor_eq ▸ hGet, hBuilt.not_generic⟩
      refine h.of_fill hBounded hCoherent rfl hSlot hConcrete ?_ ?_
      · exact fun other hMem hNe =>
          (List.mem_erase_of_ne hNe).mpr hMem
      · intro other hMentions hLt
        rw [hKey.descriptor_eq] at hMentions
        rcases hMentions with ⟨d', hGet', hMem⟩
        cases hGet.symm.trans hGet'
        rcases hBuilt.found _ hMem with ⟨slot', hFinds⟩
        rcases hFinds.exists_key hLt with ⟨key', hKey', hCache⟩
        exact ⟨key', slot', hKey', hCache⟩

end MatchCompiler

------------------------------------------------------------
-- Circles Of Instances
------------------------------------------------------------

namespace MatchCompiler

namespace Registry

variable {t : TypeTable}
variable {r : Registry}
variable {id other : DescriptorId}

/- Every registry that is built has visited what it has to. -/
theorem BuiltWith.visiting
    (h : r.BuiltWith t) :
    Extraction.Visiting t { registry := r } := by
  have hShare :
      ∀ {r : Registry} (key : SyntheticKey) {s : Schema},
        s.target = none → Extraction.Visiting t { registry := r } →
        Extraction.Visiting t
          { registry := { r with pool := (r.pool.share key s).1 } } := by
    intro r key s hTarget ih
    have hSettles := r.settles_share key s
    exact ⟨⟨ih.bounded.registry.share key hTarget, nofun⟩,
      ih.coherent.of_recalls hSettles.recalls rfl ih.coherent.memo,
      ih.mentions, ih.circles⟩
  induction h with
  | fresh marker =>
      exact ⟨⟨bounded_fresh marker, nofun⟩, ⟨nofun, nofun, nofun⟩,
        nofun, nofun⟩
  | @extract r r' id slot hBuilt hExtracts ih =>
      have hBuilt' := hBuilt.extract hExtracts
      rcases hExtracts.exists_runs hBuilt.bounded with ⟨x, hRuns, -, rfl⟩
      have hX := hRuns.invariant
        (P := Extraction.Visiting t) Move.visiting ih
      have hPending : x.pending = [] := hRuns.grows.pending
      refine ⟨⟨hBuilt'.bounded, nofun⟩, hBuilt'.inheriting.coherent, ?_,
        hX.circles⟩
      intro key slot' other hFound _
      refine hX.mentions key slot' other hFound fun _ => ?_
      rw [hPending]
      exact List.not_mem_nil
  | primitive _ kind ih => exact hShare _ rfl ih
  | sequenceOf _ hElement ih => exact hShare _ rfl ih
  | unknown _ ih => exact hShare _ rfl ih

/- All that is mentioned below what is remembered is too. -/
theorem exists_key_of_reaches
    (h : Extraction.Visiting t { registry := r })
    (hReaches : t.Reaches id other)
    (hLt : other < t.size)
    {key : ExtractionKey}
    {slot : SchemaId}
    (hKey : key.descriptor = id)
    (hFound : r.cache.lookup key = some slot) :
    ∃ key' slot', key'.descriptor = other ∧
      r.cache.lookup key' = some slot' := by
  induction hReaches with
  | refl => exact ⟨key, slot, hKey, hFound⟩
  | @tail b c _ hMentions ih =>
      have hBefore : b < t.size := by
        rcases hMentions with ⟨d, hGet, -⟩
        exact TypeTable.isSome_get?_iff.mp (hGet ▸ rfl)
      rcases ih hBefore with ⟨key', slot', rfl, hFound'⟩
      exact h.mentions key' slot' _ hFound' (fun _ => List.not_mem_nil)
        hMentions hLt

/- Extraction ends only if no instance of itself is met. -/
theorem Extracts.freeOfCircles
    (hBuilt : r.BuiltWith t)
    {r' : Registry}
    {slot : SchemaId}
    (h : r.Extracts t id r' slot) :
    t.FreeOfCircles id := by
  intro other hReaches hCircle
  have hVisiting := (hBuilt.extract h).visiting
  rcases Relation.TransGen.head'_iff.mp hCircle with ⟨_, hStep, -⟩
  have hPresent : (t.get? id).isSome = true := by
    rcases Relation.ReflTransGen.cases_head hReaches with
      rfl | ⟨_, ⟨d, hGet, -⟩, -⟩
    · exact TypeTable.isSome_get?_iff.mpr hStep.lt
    · exact hGet ▸ rfl
  have hRemembered := (h.remembers hBuilt.bounded hPresent).2
  rcases exists_key_of_reaches hVisiting hReaches hStep.lt rfl hRemembered
    with ⟨key, slot', rfl, hFound⟩
  exact hVisiting.circles key slot' hFound hCircle

/- Extraction never ends if an instance of itself is met. -/
theorem extract?_eq_none_of_circle
    (hBuilt : r.BuiltWith t)
    (hReaches : t.Reaches id other)
    (hCircle : Relation.TransGen t.Instantiates other other)
    (depth : Nat) :
    r.extract? t depth id = none := by
  cases hEnds : r.extract? t depth id with
  | none => rfl
  | some result =>
      have hExtracts : r.Extracts t id result.1 result.2 := ⟨depth, hEnds⟩
      exact absurd hCircle
        (hExtracts.freeOfCircles hBuilt other hReaches)

/- The nesting that is allowed for a table suffices. -/
theorem nesting_lt_depthLimit (t : TypeTable) :
    t.size * (t.size + 1) * (t.size + 1) + t.size < depthLimit t := by
  have hCube :
      t.size * (t.size + 1) * (t.size + 1) ≤
        (t.size + 2) * (t.size + 2) * (t.size + 2) := by
    refine Nat.mul_le_mul (Nat.mul_le_mul ?_ ?_) ?_ <;> omega
  have hSize :
      t.size + 2 ≤ (t.size + 2) * (t.size + 2) * (t.size + 2) :=
    (Nat.le_mul_self _).trans
      (Nat.le_mul_of_pos_right _ (Nat.succ_pos _))
  unfold depthLimit
  dsimp only
  omega

/- Extraction ends within the limit if there is no circle. -/
theorem isSome_extract?_depthLimit
    (hBuilt : r.BuiltWith t)
    (hFixed : t.FixedArguments)
    (hFree : t.FreeOfCircles id) :
    (r.extract? t (depthLimit t) id).isSome = true := by
  have hReady : Extraction.Ready { registry := r } t id [] :=
    ⟨nofun, ⟨hBuilt.bounded, nofun⟩, nofun, nofun⟩
  have hSupplied :
      Extraction.Supplied t none [] (t.size * (t.size + 1))
        { registry := r } :=
    ⟨hBuilt.inheriting.coherent, .start, card_unentered_le t r⟩
  rcases Extract.nested_ends hFixed (depthLimit t) [] hFree nofun .nil
      nofun (nesting_lt_depthLimit t) _ hReady hSupplied with
    ⟨slot, x, hEnds⟩
  simp [extract?, hEnds]

/-
  While one table is used whose instances have arguments that
  mention no parameter, the extraction of a descriptor ends
  if and only if it mentions, directly or through others, no
  instance of itself. Then it ends within the limit that is
  set for the table.
-/
theorem extraction_ends_iff
    (hBuilt : r.BuiltWith t)
    (hFixed : t.FixedArguments)
    (id : DescriptorId) :
    ((∃ depth, (r.extract? t depth id).isSome = true) ↔
      t.FreeOfCircles id) ∧
    (t.FreeOfCircles id →
      (r.extract? t (depthLimit t) id).isSome = true) := by
  refine ⟨⟨?_, ?_⟩, isSome_extract?_depthLimit hBuilt hFixed⟩
  · rintro ⟨depth, hSome⟩ other hReaches hCircle
    rw [extract?_eq_none_of_circle hBuilt hReaches hCircle] at hSome
    cases hSome
  · exact fun hFree => ⟨_, isSome_extract?_depthLimit hBuilt hFixed hFree⟩

/- A tree that holds a sequence of trees, by a template. -/
def forest : TypeTable :=
  { descriptors :=
      #[{ name := "Seq", params := 1,
          shape := .container .sequence [.parameter 0] },
        { name := "Forest", shape := .generic 0 [.described 2] },
        { name := "Tree",
          shape := .object { fields := [⟨"kids", .described 1, false⟩] } }] }

/- The sequence of trees is extracted, although trees recur. -/
theorem forest_extracted :
    forest.FixedArguments ∧ forest.FreeOfCircles 1 ∧
    (extract? {} forest (depthLimit forest) 1).isSome = true := by
  have hOnly :
      ∀ {id : DescriptorId} {d : TypeDescriptor} {template : DescriptorId}
        {args : List TypeRef}, forest.get? id = some d →
        d.shape = .generic template args →
        id = 1 ∧ template = 0 ∧ args = [.described 2] := by
    intro id d template args hGet hShape
    match id with
    | 0 | 2 =>
        cases hGet
        cases hShape
    | 1 =>
        cases hGet
        cases hShape
        exact ⟨rfl, rfl, rfl⟩
    | _ + 3 => cases hGet
  have hFixed : forest.FixedArguments := by
    intro id d template args hGet hShape
    rcases hOnly hGet hShape with ⟨-, -, rfl⟩
    exact List.forall_mem_singleton.mpr ⟨2, rfl, by decide +kernel⟩
  have hFree : forest.FreeOfCircles 1 := by
    -- An instance is on no circle, as it is in none.
    intro other _ hCircle
    rcases Relation.TransGen.head'_iff.mp hCircle with ⟨_, hFirst, -⟩
    rcases Relation.TransGen.tail'_iff.mp hCircle with ⟨_, -, hLast⟩
    rcases hFirst.exists_generic with ⟨d, template, args, hGet, hShape, -⟩
    rcases hOnly hGet hShape with ⟨rfl, -, -⟩
    rcases hLast.exists_generic with ⟨d', _, _, hGet', hShape', hMem⟩
    rcases hOnly hGet' hShape' with ⟨-, rfl, rfl⟩
    revert hMem
    decide
  exact ⟨hFixed, hFree,
    (extraction_ends_iff (.fresh 'k') hFixed 1).2 hFree⟩

/- A type that is defined as a sequence of itself. -/
def nestedSequences : TypeTable :=
  { descriptors :=
      #[{ name := "Seq", params := 1,
          shape := .container .sequence [.parameter 0] },
        { name := "Nest", shape := .generic 0 [.described 1] }] }

/-
  The argument mentions no parameter, and yet extraction goes
  on for ever: the slot of the instance is remembered only
  when that of the argument is known.
-/
theorem nestedSequences_endless :
    nestedSequences.FixedArguments ∧
    ∀ depth, extract? {} nestedSequences depth 1 = none := by
  have hFixed : nestedSequences.FixedArguments := by
    intro id d template args hGet hShape
    match id with
    | 0 =>
        cases hGet
        cases hShape
    | 1 =>
        cases hGet
        cases hShape
        exact List.forall_mem_singleton.mpr ⟨1, rfl, by decide +kernel⟩
    | _ + 2 => cases hGet
  have hStep : nestedSequences.Instantiates 1 1 :=
    TypeTable.instantiates_of_mem rfl rfl
      (List.mem_cons_of_mem _ List.mem_cons_self)
  exact ⟨hFixed,
    extract?_eq_none_of_circle (.fresh 'k') .refl (.single hStep)⟩

end Registry

end MatchCompiler
