import MatchCompiler.Proofs.Checking
import MatchCompiler.Proofs.Inheritance
import MatchCompiler.Proofs.SchemaLaws

/-
  This file shows what kind a reference is read as.

  A reference has the fields, branches, discriminator and
  ancestors of what it points to, but no kind: it is read as
  a union if it has a discriminator and as a record otherwise.
  Among what is no reference just unions have discriminators.
  So the kind is right for records and unions behind any
  number of aliases and references, and for nothing else.

  Key definitions include:
    * `Schema.TellsUnion`
    * `Schema.ReadsAs`

  Key theorems include:
    * `SchemaPool.AllSettled.readsAs`
    * `Registry.structuralKind_of_pointee`
-/

------------------------------------------------------------
-- Discriminators And Kinds
------------------------------------------------------------

namespace MatchCompiler

/-
  Unless a schema is a reference, it has a discriminator just
  if it is a union.
-/
def Schema.TellsUnion (s : Schema) : Prop :=
  s.kind ≠ .reference →
    (s.discriminator.isSome = true ↔ s.kind = .union)

namespace Schema

variable {s : Schema}

/- What has no variant part is no union. -/
theorem tellsUnion_of_plain
    (hDisc : s.discriminator = none)
    (hKind : s.kind ≠ .union) :
    s.TellsUnion := by
  intro _
  rw [hDisc]
  exact iff_of_false nofun hKind

end Schema

theorem Container.tellsUnion_schema
    (name : String)
    (kind : Container)
    (slots : List SchemaId) :
    (kind.schema name slots).TellsUnion := by
  unfold Container.schema
  split <;> exact Schema.tellsUnion_of_plain rfl nofun

/- An object is a union if it has a discriminator. -/
theorem BuiltObject.tellsUnion
    {t : TypeTable}
    {r : Registry}
    {env : List SchemaId}
    {name : String}
    {origin : Origin}
    {o : ObjectShape}
    {s : Schema}
    (h : BuiltObject t r env name origin o s) :
    s.TellsUnion := by
  intro _
  cases h with
  | @plain s own hStart hOwn hVariant =>
      cases hDisc : s.discriminator with
      | none => exact iff_of_false nofun nofun
      | some d => exact iff_of_true rfl rfl
  | variant hStart hOwn hVariant hVaries =>
      cases hVaries
      exact iff_of_true rfl rfl

/- Whatever is built for a descriptor keeps to that. -/
theorem Schema.law_tellsUnion :
    Schema.Law Schema.TellsUnion where
  unknown := fun name => tellsUnion_of_plain rfl nofun
  primitive := fun kind name => tellsUnion_of_plain rfl nofun
  sequence := fun name element => tellsUnion_of_plain rfl nofun
  described := fun id h => h
  view := by
    intro p kind source name h
    cases kind with
    | «alias» => exact h
    | reference => exact fun hKind => absurd rfl hKind
  built := by
    intro t x env id origin slot name shape s noted hBuilt hObeys
    cases hBuilt with
    | primitive kind => exact tellsUnion_of_plain rfl nofun
    | enumeration members => exact tellsUnion_of_plain rfl nofun
    | unknown => exact tellsUnion_of_plain rfl nofun
    | misfit => exact tellsUnion_of_plain rfl nofun
    | container hArity hArgs => exact Container.tellsUnion_schema _ _ _
    | tuple hFields => exact tellsUnion_of_plain rfl nofun
    | object hObject => exact hObject.tellsUnion
    | @view kind target source _ _ hShape hSource hNoted =>
        cases kind with
        | «alias» => exact hObeys source
        | reference => exact fun hKind => absurd rfl hKind

end MatchCompiler

------------------------------------------------------------
-- What Is Read Through Views
------------------------------------------------------------

namespace MatchCompiler

/-
  A schema shows the parts of another; its kind is the same
  unless it is a reference.
-/
structure Schema.ReadsAs
    (s u : Schema) : Prop where
  kind : s.kind = .reference ∨ s.kind = u.kind
  fields : s.fields = u.fields
  branches : s.branches = u.branches
  discriminator : s.discriminator = u.discriminator
  ancestors : s.ancestors = u.ancestors

namespace Schema.ReadsAs

variable {s u w : Schema}

theorem refl (s : Schema) : s.ReadsAs s :=
  ⟨.inr rfl, rfl, rfl, rfl, rfl⟩

theorem trans
    (h : s.ReadsAs u)
    (h' : u.ReadsAs w)
    (hKeeps : u.kind = .reference → s.kind = .reference) :
    s.ReadsAs w := by
  refine ⟨?_, h.fields.trans h'.fields, h.branches.trans h'.branches,
    h.discriminator.trans h'.discriminator,
    h.ancestors.trans h'.ancestors⟩
  rcases h.kind with hReference | hSame
  · exact .inl hReference
  · rcases h'.kind with hReference | hNext
    · exact .inl (hKeeps hReference)
    · exact .inr (hSame.trans hNext)

end Schema.ReadsAs

namespace SchemaPool

variable {p : SchemaPool}
variable {a b c : SchemaId}

/- A settled view shows the parts of its source. -/
theorem AllSettled.readsAs_source
    (h : p.AllSettled)
    (hLinks : p.Links a b) :
    (p.get a).ReadsAs (p.get b) ∧
    ((p.get b).kind = .reference → (p.get a).kind = .reference) := by
  rcases h.slots a with hPlain | ⟨v, hv, -⟩ | ⟨v, rfl, -, -, -, hGet⟩
  · exact absurd hLinks (not_links_of_isPlain hPlain)
  · cases hv
  · have hShows := v.shows_rebuilt p
    rw [← hGet] at hShows
    cases hLinks.unique hShows
    rw [hGet]
    unfold View.rebuilt SchemaPool.view Schema.view
    cases v.kind with
    | «alias» => exact ⟨⟨.inr rfl, rfl, rfl, rfl, rfl⟩, id⟩
    | reference => exact ⟨⟨.inl rfl, rfl, rfl, rfl, rfl⟩, fun _ => rfl⟩

/- So does every slot that comes to another. -/
theorem AllSettled.readsAs
    (h : p.AllSettled)
    (hComes : p.ComesTo a c) :
    (p.get a).ReadsAs (p.get c) := by
  rcases hComes with ⟨n, hChain⟩
  induction hChain with
  | done => exact .refl _
  | step hLinks _ ih =>
      rcases h.readsAs_source hLinks with ⟨hSource, hKeeps⟩
      exact hSource.trans ih hKeeps

/- Without circles every slot comes to what it unwraps to. -/
theorem AllSettled.comesTo_unwrap
    (h : p.AllSettled)
    (hAcyclic : p.Acyclic)
    (slot : SchemaId) :
    p.ComesTo slot (p.unwrap slot) := by
  rcases exists_comesTo h.shown (hAcyclic.grounded slot) with
    ⟨c, hComes⟩
  rw [hComes.unwrap_eq]
  exact hComes

end SchemaPool

end MatchCompiler

------------------------------------------------------------
-- Kinds Of References
------------------------------------------------------------

namespace MatchCompiler

/- The kinds of objects. -/
def SchemaKind.IsObject (k : SchemaKind) : Prop :=
  k = .record ∨ k = .union

/- A reference is read as a union if what it shows is one. -/
theorem Schema.ReadsAs.structuralKind_eq
    {s u : Schema}
    (h : s.ReadsAs u)
    (hPlain : u.kind ≠ .reference)
    (hUnion : u.TellsUnion) :
    s.structuralKind =
      if s.isReference then
        if u.kind = .union then .union else .record
      else
        u.kind := by
  unfold structuralKind isReference
  split
  · rw [h.discriminator]
    by_cases hKind : u.kind = .union
    · rw [if_pos ((hUnion hPlain).mpr hKind), if_pos hKind]
    · rw [if_neg fun hDisc => hKind ((hUnion hPlain).mp hDisc),
        if_neg hKind]
  · rename_i hReference
    rcases h.kind with hKind | hKind
    · exact absurd (beq_iff_eq.mpr hKind) hReference
    · exact hKind

/- The kind is right for objects only, if behind a reference. -/
theorem Schema.ReadsAs.structuralKind_eq_iff
    {s u : Schema}
    (h : s.ReadsAs u)
    (hPlain : u.kind ≠ .reference)
    (hUnion : u.TellsUnion) :
    s.structuralKind = u.kind ↔
      (s.isReference = true → u.kind.IsObject) := by
  rw [h.structuralKind_eq hPlain hUnion]
  by_cases hReference : s.isReference = true
  · rw [if_pos hReference]
    unfold SchemaKind.IsObject
    by_cases hKind : u.kind = .union
    · rw [if_pos hKind, hKind]
      exact iff_of_true rfl fun _ => .inr rfl
    · rw [if_neg hKind]
      refine ⟨fun hSame _ => .inl hSame.symm, fun hObject => ?_⟩
      rcases hObject hReference with hRecord | hOther
      · exact hRecord.symm
      · exact absurd hOther hKind
  · rw [if_neg hReference]
    exact iff_of_true rfl fun h => absurd h hReference

/- A constructor is accepted over objects and optionals. -/
theorem Accepts.structuralKind_of_constructor
    {ctx : CheckContext}
    {span : Span}
    {head : ConstructorHead}
    {fields : List (FieldName × Pattern)}
    {args : List Pattern}
    {id : SchemaId}
    {s s' : Progress}
    {q : Checked}
    (h : Accepts ctx (.constructor span head fields args) id s q s') :
    (s.pool.get id).structuralKind.IsObject ∨
    (s.pool.get id).structuralKind = .optional := by
  cases h with
  | some hKind => exact .inr hKind
  | someUnknown hKind => exact .inr hKind
  | none hKind => exact .inr hKind
  | object hKind => exact .inl hKind

namespace Registry

variable {t : TypeTable}
variable {r : Registry}

/-
  In a registry whose aliases and references do not go round
  in a circle, every schema is read with the kind of what it
  unwraps to, except for a reference to something that is no
  object: that is read as a record. Where the kind is right,
  a constructor pattern is accepted only over an object, or an
  optional that is not behind a reference.
-/
theorem structuralKind_of_pointee
    (hBuilt : r.BuiltWith t)
    (hAcyclic : r.pool.Acyclic)
    (slot : SchemaId) :
    let s := r.get slot
    let pointee := r.get (r.pool.unwrap slot)
    (s.structuralKind = pointee.kind ↔
      (s.isReference = true → pointee.kind.IsObject)) ∧
    (s.isReference = true → ¬ pointee.kind.IsObject →
      s.structuralKind = .record) ∧
    ∀ (ctx : CheckContext) (span : Span) (head : ConstructorHead)
      (fields : List (FieldName × Pattern)) (args : List Pattern)
      (arm : CheckedArm),
      (r.checkArm ctx slot (.constructor span head fields args)).2 =
        .ok arm →
      s.structuralKind = pointee.kind →
      pointee.kind.IsObject ∨
        pointee.kind = .optional ∧ s.isReference = false := by
  intro s pointee
  have hSettled := hBuilt.allSettled hAcyclic
  have hComes := hSettled.comesTo_unwrap hAcyclic slot
  have hReads : s.ReadsAs pointee := hSettled.readsAs hComes
  have hPlain : pointee.kind ≠ .reference := hComes.isPlain.kind
  have hUnion : pointee.TellsUnion :=
    hBuilt.obeys Schema.law_tellsUnion _
  have hKind := hReads.structuralKind_eq hPlain hUnion
  have hIff := hReads.structuralKind_eq_iff hPlain hUnion
  refine ⟨hIff, fun hReference hNot => ?_, ?_⟩
  · rw [hKind, if_pos hReference]
    exact if_neg fun hIs => hNot (.inr hIs)
  · intro ctx span head fields args arm hArm hSame
    have hAccepts :
        Accepts ctx (.constructor span head fields args) slot _
          arm.pattern _ :=
      accepts_of_checkArm (Prod.ext rfl hArm)
    rcases hAccepts.structuralKind_of_constructor with hObject | hOptional
    · left
      rw [← hSame]
      exact hObject
    · have hPointee : pointee.kind = .optional := hSame ▸ hOptional
      refine .inr ⟨hPointee, Bool.eq_false_iff.mpr fun hReference => ?_⟩
      have hObject := hIff.mp hSame hReference
      rw [hPointee] at hObject
      rcases hObject with h | h <;> cases h

/- A node refers to another one and to some numbers. -/
def pointingNode : TypeTable :=
  { descriptors :=
      #[{ name := "Node",
          shape := .object {
            fields :=
              [⟨"next", .described 1, false⟩,
               ⟨"items", .described 2, false⟩] } },
        { name := "NodeRef", shape := .reference (.described 0) },
        { name := "IntsRef", shape := .reference (.described 3) },
        { name := "Ints",
          shape := .container .sequence [.described 4] },
        { name := "int", shape := .primitive .i64 }] }

/- The reference to a node is met while the node is not filled. -/
def pointingNodeRegistry : Registry :=
  ((extract? {} pointingNode 5 0).map Prod.fst).getD {}

theorem pointingNodeRegistry_built :
    pointingNodeRegistry.BuiltWith pointingNode ∧
    pointingNodeRegistry.pool.Acyclic := by
  have hExtracts :
      Extracts {} pointingNode 0 pointingNodeRegistry 0 :=
    extracts_of_map_snd (by decide +kernel)
  refine ⟨.extract (.fresh 'k') hExtracts, ?_⟩
  exact SchemaPool.acyclic_of_rank (· % 3) (by decide +kernel)

/- A reference to a record is read as a record. -/
theorem nodeRef_readAsRecord :
    let r := pointingNodeRegistry
    r.BuiltWith pointingNode ∧ r.pool.Acyclic ∧
    (r.get 1).isReference = true ∧
    (r.get (r.pool.unwrap 1)).kind = .record ∧
    (r.get 1).structuralKind = .record := by
  intro r
  rcases pointingNodeRegistry_built with ⟨hBuilt, hAcyclic⟩
  have hPointee : (r.get (r.pool.unwrap 1)).kind = .record := by
    decide +kernel
  refine ⟨hBuilt, hAcyclic, by decide +kernel, hPointee, ?_⟩
  rw [← hPointee]
  apply (structuralKind_of_pointee hBuilt hAcyclic 1).1.mpr
  exact fun _ => .inl hPointee

/-
  So is a reference to a sequence, and a constructor pattern
  is accepted there.
-/
theorem intsRef_readAsRecord :
    let r := pointingNodeRegistry
    let ctx : CheckContext := { table := pointingNode, marker := 'k' }
    r.BuiltWith pointingNode ∧ r.pool.Acyclic ∧
    (r.get (r.pool.unwrap 2)).kind = .sequence ∧
    (r.get 2).structuralKind = .record ∧
    ∃ arm, (r.checkArm ctx 2 (.constructor {} {} [] [])).2 = .ok arm := by
  intro r ctx
  rcases pointingNodeRegistry_built with ⟨hBuilt, hAcyclic⟩
  refine ⟨hBuilt, hAcyclic, by decide +kernel, by decide +kernel, ?_⟩
  have hAccepted :
      (r.checkArm ctx 2 (.constructor {} {} [] [])).2.isOk = true := by
    decide +kernel
  rcases hArm : (r.checkArm ctx 2 (.constructor {} {} [] [])).2 with
    problems | arm
  · rw [hArm] at hAccepted
    cases hAccepted
  · exact ⟨arm, rfl⟩

end Registry

end MatchCompiler
