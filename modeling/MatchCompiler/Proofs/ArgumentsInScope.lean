import MatchCompiler.Proofs.Inheritance

/-
  This file shows that the generic arguments in scope matter
  only to descriptors that depend on them.

  Two runs of the same extraction are compared, under one
  list of arguments and under another. They do the same as
  long as each descriptor that can tell the lists apart is
  given the same list. A descriptor without a parameter below
  it mentions only such descriptors, so that its extraction
  is one run: it returns the same slot and leaves the same
  pool and the same cache. So the slot can be remembered for
  the descriptor alone.

  Key definitions include:
    * `TypeTable.CannotTell`
    * `Extraction.Informed`
    * `SameRun`

  Key theorems include:
    * `SameRun.nested`
    * `Registry.cached_by_descriptor_alone`
-/

------------------------------------------------------------
-- Programs That Do The Same
------------------------------------------------------------

namespace MatchCompiler

/-
  Two lists of arguments that are the same for a descriptor:
  they differ only if it does not depend on them.
-/
def TypeTable.CannotTell
    (t : TypeTable)
    (id : DescriptorId)
    (env env' : List SchemaId) : Prop :=
  t.mentionsParams id = true → env = env'

/- What has been noted about parameters is right. -/
def Extraction.Informed
    (t : TypeTable)
    (x : Extraction) : Prop :=
  ∀ id b, x.registry.parametric.lookup id = some b →
    b = t.mentionsParams id

/-
  Two steps give the same result and the same state, if they
  end, in every state in which what has been noted is right.
-/
def SameRun
    {α : Type}
    (t : TypeTable)
    (m m' : Extract α) : Prop :=
  ∀ x, x.Informed t →
    m x = m' x ∧ ∀ a y, m x = some (a, y) → y.Informed t

namespace SameRun

variable {α β : Type}
variable {t : TypeTable}

theorem pure (a : α) : SameRun t (Pure.pure a) (Pure.pure a) := by
  intro x hInformed
  refine ⟨rfl, fun b y hEnds => ?_⟩
  cases hEnds
  exact hInformed

/- A step that notes nothing about parameters. -/
theorem of_step
    {m : Extract α}
    {f : Extraction → α × Extraction}
    (hStep : ∀ x, m x = some (f x))
    (hKept :
      ∀ x, (f x).2.registry.parametric = x.registry.parametric) :
    SameRun t m m := by
  refine fun x hInformed => ⟨rfl, fun a y hEnds => ?_⟩
  have hEnd : f x = (a, y) :=
    Option.some.inj ((hStep x).symm.trans hEnds)
  have hSame := hKept x
  rw [hEnd] at hSame
  unfold Extraction.Informed
  rw [hSame]
  exact hInformed

/- Steps that do the same after steps that do the same. -/
theorem bind
    {m m' : Extract α}
    {f f' : α → Extract β}
    (hm : SameRun t m m')
    (hf : ∀ a, SameRun t (f a) (f' a)) :
    SameRun t (m >>= f) (m' >>= f') := by
  intro x hInformed
  rcases hm x hInformed with ⟨hSame, hKept⟩
  constructor
  · change (m x).bind _ = (m' x).bind _
    rw [← hSame]
    cases hEnds : m x with
    | none => rfl
    | some end' =>
        rcases end' with ⟨a, y⟩
        exact (hf a y (hKept a y hEnds)).1
  · intro b z hEnds
    rcases Extract.bind_eq_some_iff.mp hEnds with ⟨a, y, hFirst, hThen⟩
    exact (hf a y (hKept a y hFirst)).2 b z hThen

theorem pool : SameRun t Extract.pool Extract.pool :=
  .of_step (fun _ => rfl) fun _ => rfl

theorem unknown : SameRun t Extract.unknown Extract.unknown :=
  .of_step (fun _ => rfl) fun _ => rfl

/-
  What is found out about parameters is right, and noted as
  it is: only what is done for that answer has to be compared.
-/
theorem isParametric
    {id : DescriptorId}
    {f f' : Bool → Extract β}
    (hf :
      SameRun t (f (t.mentionsParams id)) (f' (t.mentionsParams id))) :
    SameRun t (Extract.isParametric t id >>= f)
      (Extract.isParametric t id >>= f') := by
  intro x hInformed
  have hFound :
      ∃ y, Extract.isParametric t id x = some (t.mentionsParams id, y) ∧
        y.Informed t := by
    cases hKnown : x.registry.parametric.lookup id with
    | some known =>
        rw [Extract.isParametric_of_known t hKnown,
          hInformed id known hKnown]
        exact ⟨x, rfl, hInformed⟩
    | none =>
        exact ⟨_, Extract.isParametric_of_new t hKnown,
          TypeTable.memo_cons hInformed id⟩
  rcases hFound with ⟨y, hAnswer, hKept⟩
  have hThen :
      ∀ g : Bool → Extract β,
        (Extract.isParametric t id >>= g) x =
          g (t.mentionsParams id) y := by
    intro g
    change ((Extract.isParametric t id : Extract Bool) x).bind _ = _
    rw [hAnswer]
    rfl
  rw [hThen, hThen]
  exact hf y hKept

end SameRun

end MatchCompiler

------------------------------------------------------------
-- Schemas Under Two Lists Of Arguments
------------------------------------------------------------

namespace MatchCompiler

/- What is looked at does not go beyond what is open. -/
theorem Shape.followed_subset_openRefs
    {shape : Shape}
    (hConcrete : ∀ template args, shape ≠ .generic template args) :
    shape.followed ⊆ shape.openRefs := by
  cases shape with
  | generic template args => exact absurd rfl (hConcrete template args)
  | container kind args =>
      simp only [Shape.followed, Shape.openRefs, Shape.refs]
      split
      · exact List.Subset.refl _
      · exact List.nil_subset _
  | _ => exact List.Subset.refl _

namespace SameRun

variable {t : TypeTable}
variable {extract : DescriptorId → List SchemaId → Extract SchemaId}
variable {env env' : List SchemaId}

/- A type is resolved under both lists in the same way. -/
theorem resolve
    (hExtract :
      ∀ id env env', t.CannotTell id env env' →
        SameRun t (extract id env) (extract id env'))
    {id : DescriptorId}
    {d : TypeDescriptor}
    (hGet : t.get? id = some d)
    (hEnv : t.CannotTell id env env')
    {ref : TypeRef}
    (hRef : ref ∈ d.shape.openRefs) :
    SameRun t (Extract.resolve extract env ref)
      (Extract.resolve extract env' ref) := by
  cases hMentions : t.mentionsParams id with
  | true =>
      cases hEnv hMentions
      cases ref with
      | described other => exact hExtract other env env fun _ => rfl
      | parameter i =>
          simp only [Extract.resolve]
          cases env[i]? with
          | some slot => exact .pure slot
          | none => exact .unknown
  | false =>
      -- No parameter is mentioned, and other lists do not matter.
      rcases TypeTable.mentionsParams_of_mem hGet hMentions hRef with
        ⟨other, rfl, hOther⟩
      refine hExtract other env env' fun hTrue => ?_
      rw [hOther] at hTrue
      cases hTrue

/- The types in a list are resolved in the same way. -/
theorem resolveAll
    {refs : List TypeRef}
    (hRefs :
      ∀ ref ∈ refs,
        SameRun t (Extract.resolve extract env ref)
          (Extract.resolve extract env' ref)) :
    SameRun t (refs.mapM (Extract.resolve extract env))
      (refs.mapM (Extract.resolve extract env')) := by
  induction refs with
  | nil => exact .pure []
  | cons ref refs ih =>
      rcases List.forall_mem_cons.mp hRefs with ⟨hRef, hRest⟩
      rw [List.mapM_cons, List.mapM_cons]
      exact hRef.bind fun slot => (ih hRest).bind fun slots => .pure _

section

variable {d : TypeDescriptor}
variable
  (hRefs :
    ∀ ref ∈ d.shape.followed,
      SameRun t (Extract.resolve extract env ref)
        (Extract.resolve extract env' ref))

include hRefs

theorem fields
    {ds : List FieldDecl}
    (hTypes : ds.map FieldDecl.type ⊆ d.shape.followed)
    (position : Nat) :
    SameRun t (Extract.fields extract env position ds)
      (Extract.fields extract env' position ds) := by
  induction ds generalizing position with
  | nil => exact .pure []
  | cons decl ds ih =>
      rcases List.cons_subset.mp hTypes with ⟨hType, hRest⟩
      exact (hRefs _ hType).bind fun slot =>
        (ih hRest (position + 1)).bind fun fs => .pure _

theorem tupleFields
    {es : List TupleElement}
    (hTypes : es.map TupleElement.type ⊆ d.shape.followed)
    (position : Nat) :
    SameRun t (Extract.tupleFields extract env position es)
      (Extract.tupleFields extract env' position es) := by
  induction es generalizing position with
  | nil => exact .pure []
  | cons e es ih =>
      rcases List.cons_subset.mp hTypes with ⟨hType, hRest⟩
      exact (hRefs _ hType).bind fun slot =>
        (ih hRest (position + 1)).bind fun fs => .pure _

theorem branchFields
    {branches : List BranchDecl}
    (hTypes :
      branches.flatMap (fun b => b.fields.map FieldDecl.type) ⊆
        d.shape.followed)
    (position : Nat) :
    SameRun t (Extract.branchFields extract env position branches)
      (Extract.branchFields extract env' position branches) := by
  induction branches with
  | nil => exact .pure []
  | cons b bs ih =>
      rw [List.flatMap_cons, List.append_subset] at hTypes
      exact (fields hRefs hTypes.1 position).bind fun own =>
        (ih hTypes.2).bind fun rest => .pure _

theorem container
    (name : String)
    {kind : Container}
    {args : List TypeRef}
    (hShape : d.shape = .container kind args) :
    SameRun t (Extract.container extract env name kind args)
      (Extract.container extract env' name kind args) := by
  by_cases hArity : args.length = kind.arity
  · rw [Follows.container_eq env name extract hArity,
      Follows.container_eq env' name extract hArity]
    have hArgs : args ⊆ d.shape.followed := by
      rw [hShape, Shape.followed, if_pos hArity]
      exact List.Subset.refl _
    exact (resolveAll fun ref hRef => hRefs ref (hArgs hRef)).bind
      fun slots => .pure _
  · rw [Follows.container_of_misfit env name extract hArity,
      Follows.container_of_misfit env' name extract hArity]
    exact .pure _

theorem inherit
    (name : String)
    {o : ObjectShape}
    (hShape : d.shape = .object o) :
    SameRun t (Extract.inherit extract env name o)
      (Extract.inherit extract env' name o) := by
  unfold Extract.inherit
  cases hBase : o.base with
  | none => exact .pure _
  | some base =>
      exact (hRefs base (Shape.base_mem_followed hShape hBase)).bind
        fun source => pool.bind fun p => .pure _

theorem variant
    {o : ObjectShape}
    {v : VariantPart}
    (hShape : d.shape = .object o)
    (hVariant : o.variant = some v)
    (s : Schema) :
    SameRun t (Extract.variant extract env d.origin s v)
      (Extract.variant extract env' d.origin s v) := by
  rcases List.cons_subset.mp
      (Shape.variant_subset_followed hShape hVariant) with
    ⟨hType, hBranches⟩
  refine (hRefs _ hType).bind fun slot => pool.bind fun p => ?_
  refine (branchFields hRefs hBranches _).bind fun added => ?_
  exact .of_step (fun _ => rfl) fun _ => rfl

theorem object
    (name : String)
    {o : ObjectShape}
    (hShape : d.shape = .object o) :
    SameRun t (Extract.object extract env name d.origin o)
      (Extract.object extract env' name d.origin o) := by
  have hFields := Shape.fields_subset_followed hShape
  refine (inherit hRefs name hShape).bind fun s => ?_
  refine (fields hRefs hFields _).bind fun own => ?_
  cases hVariant : o.variant with
  | none => exact .pure _
  | some v =>
      exact (variant hRefs hShape hVariant _).bind fun s => .pure _

theorem ofShape
    (id : DescriptorId)
    (slot : SchemaId)
    (name : String) :
    SameRun t (Extract.ofShape extract env id d slot name)
      (Extract.ofShape extract env' id d slot name) := by
  have hView :
      ∀ (kind : ViewKind) {target : TypeRef},
        d.shape = kind.shape target →
        SameRun t
          (Extract.resolve extract env target >>= fun source =>
            Extract.view kind slot source name id)
          (Extract.resolve extract env' target >>= fun source =>
            Extract.view kind slot source name id) := by
    intro kind target hShape
    have hRef : target ∈ d.shape.followed := by
      rw [hShape]
      cases kind <;> exact List.mem_singleton_self target
    exact (hRefs target hRef).bind fun source =>
      .of_step (Extract.view_eq kind slot source name id) fun _ => rfl
  unfold Extract.ofShape
  split
  · exact .pure _
  · rename_i hShape
    exact hView .alias hShape
  · rename_i hShape
    exact hView .reference hShape
  · rename_i hShape
    exact container hRefs name hShape
  · rename_i hShape
    exact object hRefs name hShape
  · rename_i elements hShape
    have hTypes :
        elements.map TupleElement.type ⊆ d.shape.followed := by
      rw [hShape]
      exact List.Subset.refl _
    exact (tupleFields hRefs hTypes 0).bind fun fields => .pure _
  · exact .pure _
  · exact .pure _
  · exact .pure _

end

end SameRun

end MatchCompiler

------------------------------------------------------------
-- Extractions Under Two Lists Of Arguments
------------------------------------------------------------

namespace MatchCompiler

namespace SameRun

variable {t : TypeTable}
variable {extract : DescriptorId → List SchemaId → Extract SchemaId}
variable {id : DescriptorId}
variable {d : TypeDescriptor}
variable {env env' : List SchemaId}
variable
  (hExtract :
    ∀ id env env', t.CannotTell id env env' →
      SameRun t (extract id env) (extract id env'))

/- Only a template shows arguments in its name. -/
theorem instanceName
    (hGet : t.get? id = some d)
    (hEnv : t.CannotTell id env env') :
    SameRun t (Extract.instanceName d env)
      (Extract.instanceName d env') := by
  cases hMentions : t.mentionsParams id with
  | true =>
      cases hEnv hMentions
      unfold Extract.instanceName
      split
      · exact .pure _
      · exact pool.bind fun p => .pure _
  | false =>
      have hZero := TypeTable.params_of_not_mentionsParams hGet hMentions
      simp only [Extract.instanceName, hZero, BEq.rfl, Bool.true_or, if_true]
      exact .pure _

include hExtract

theorem assign
    (hGet : t.get? id = some d)
    (hEnv : t.CannotTell id env env')
    (key : ExtractionKey) :
    SameRun t (Extract.assign extract env id d key)
      (Extract.assign extract env' id d key) := by
  have hOpen :
      ∀ ref ∈ d.shape.openRefs,
        SameRun t (Extract.resolve extract env ref)
          (Extract.resolve extract env' ref) :=
    fun ref hRef => resolve hExtract hGet hEnv hRef
  have hRemember :
      ∀ slot,
        SameRun t (Extract.remember key slot)
          (Extract.remember key slot) :=
    fun slot => .of_step (fun _ => rfl) fun _ => rfl
  unfold Extract.assign
  split
  · -- The template is found under the arguments of the instance.
    rename_i template args hGeneric
    rw [hGeneric] at hOpen
    refine (resolveAll hOpen).bind fun slots => ?_
    refine (hExtract template slots slots fun _ => rfl).bind fun slot => ?_
    exact (hRemember slot).bind fun _ => .pure slot
  · rename_i hConcrete
    have hRefs := fun ref hRef =>
      hOpen ref (Shape.followed_subset_openRefs hConcrete hRef)
    refine SameRun.bind (.of_step (fun _ => rfl) fun _ => rfl)
      fun slot => (hRemember slot).bind fun _ => ?_
    have hBuild :
        SameRun t (Extract.build extract env id d slot)
          (Extract.build extract env' id d slot) :=
      (instanceName hGet hEnv).bind fun name =>
        (ofShape hRefs id slot name).bind fun s => .pure _
    exact hBuild.bind fun s =>
      SameRun.bind (.of_step (fun _ => rfl) fun _ => rfl)
        fun _ => .pure slot

/- One more level of descriptors. -/
theorem step
    (hEnv : t.CannotTell id env env') :
    SameRun t (Extract.step t extract id env)
      (Extract.step t extract id env') := by
  unfold Extract.step
  cases hGet : t.get? id with
  | none => exact .unknown
  | some d =>
      refine .isParametric ?_
      -- The key holds the list only if the descriptor can tell.
      have hArgs :
          (if t.mentionsParams id = true then env else []) =
            if t.mentionsParams id = true then env' else [] := by
        split
        · rename_i hMentions
          exact hEnv hMentions
        · rfl
      rw [hArgs]
      refine SameRun.bind (.of_step (fun _ => rfl) fun _ => rfl)
        fun x => ?_
      split
      · exact .of_step (fun _ => rfl) fun _ => rfl
      · exact SameRun.bind (.of_step (fun _ => rfl) fun _ => rfl)
          fun _ => assign hExtract hGet hEnv _

omit hExtract

/- Extraction is one run, however deep it goes. -/
theorem nested
    (n : Nat)
    (hEnv : t.CannotTell id env env') :
    SameRun t (Extract.nested t n id env)
      (Extract.nested t n id env') := by
  induction n generalizing id env env' with
  | zero => exact fun x _ => ⟨rfl, nofun⟩
  | succ n ih => exact step (fun _ _ _ hEnv => ih hEnv) hEnv

end SameRun

end MatchCompiler

------------------------------------------------------------
-- Keys Without Arguments
------------------------------------------------------------

namespace MatchCompiler

namespace Registry

variable {t : TypeTable}
variable {r : Registry}

/- What an extraction has noted so far is right. -/
theorem BuiltWith.informed
    (h : r.BuiltWith t)
    {x : Extraction}
    (hReached : Relation.ReflTransGen (Move t) { registry := r } x) :
    x.Informed t := by
  have hInheriting : x.Inheriting t := by
    induction hReached with
    | refl => exact h.inheriting
    | tail _ hMove ih => exact ih.move hMove
  exact hInheriting.coherent.memo

/-
  Arguments in scope do not matter to a descriptor that does
  not depend on them: between extractions, and at any time
  during one, it is given the same slot under all lists of
  arguments, and the same pool and cache are left. It depends
  on them if and only if a parameter, or a descriptor that
  declares some, is reached from it.
-/
theorem cached_by_descriptor_alone
    (hBuilt : r.BuiltWith t)
    {x : Extraction}
    (hReached : Relation.ReflTransGen (Move t) { registry := r } x)
    (id : DescriptorId) :
    (t.mentionsParams id = false →
      ∀ n env env',
        Extract.nested t n id env x = Extract.nested t n id env' x) ∧
    (t.mentionsParams id = true ↔ t.DependsOnScope id) := by
  refine ⟨fun hNone n env env' => ?_, TypeTable.mentionsParams_iff⟩
  have hEnv : t.CannotTell id env env' := by
    intro hTrue
    rw [hNone] at hTrue
    cases hTrue
  exact (SameRun.nested n hEnv x (hBuilt.informed hReached)).1

/-
  A folder that holds a sequence of folders, by a template
  that also mentions its own instance.
-/
def folders : TypeTable :=
  { descriptors :=
      #[{ name := "Folder",
          shape := .object
            { fields :=
                [⟨"name", .described 3, false⟩,
                  ⟨"kids", .described 1, false⟩] } },
        { name := "Folders", shape := .generic 2 [.described 0] },
        { name := "List", params := 1,
          shape := .object
            { fields :=
                [⟨"first", .parameter 0, false⟩,
                  ⟨"others", .described 4, false⟩] } },
        { name := "string", shape := .primitive .str },
        { name := "ListRef", shape := .reference (.described 2) }] }

/- The registry after the name of a folder is extracted. -/
def foldersRegistry : Registry :=
  ((extract? {} folders 1 3).map Prod.fst).getD {}

/-
  The folder is extracted alike without arguments and with
  some. The reference inside the template depends on them,
  through the template.
-/
theorem folders_extracted_alike :
    foldersRegistry.BuiltWith folders ∧
    folders.mentionsParams 0 = false ∧
    Extract.nested folders 5 0 [] { registry := foldersRegistry } =
      Extract.nested folders 5 0 [0] { registry := foldersRegistry } ∧
    (Extract.nested folders 5 0 [] { registry := foldersRegistry }).map
      Prod.fst = some 1 ∧
    folders.mentionsParams 4 = true ∧ folders.DependsOnScope 4 := by
  have hExtracts : Extracts {} folders 3 foldersRegistry 0 :=
    extracts_of_map_snd (by decide +kernel)
  have hBuilt : foldersRegistry.BuiltWith folders :=
    .extract (.fresh 'k') hExtracts
  have hNone : folders.mentionsParams 0 = false := by decide +kernel
  have hSome : folders.mentionsParams 4 = true := by decide +kernel
  refine ⟨hBuilt, hNone, ?_, by decide +kernel, hSome, ?_⟩
  · exact (cached_by_descriptor_alone hBuilt .refl 0).1 hNone 5 [] [0]
  · exact (cached_by_descriptor_alone hBuilt .refl 4).2.mp hSome

end Registry

end MatchCompiler
