import MatchCompiler.Proofs.Acceptance
import MatchCompiler.Proofs.SchemaLaws

/-
  This file shows that all schemas of a registry are proper:
  an optional has an element type, branches with the same
  label have the same fields, and a discriminator is a field.

  Every slot holds a schema that was built for a descriptor,
  one that stands there until then, or a view of another. A
  domain may list a label twice, but what a branch gets is
  decided by its label alone. So the field of a pinned label
  is found in whichever branch with that label comes first.

  Key definitions include:
    * `Schema.Proper`
    * `SchemaPool.Proper`
    * `Registry.Orderly`

  Key theorems include:
    * `Schema.law_proper`
    * `Registry.Later.orderly`
    * `Schema.Proper.exists_field`
-/

------------------------------------------------------------
-- Proper Schemas
------------------------------------------------------------

namespace MatchCompiler

/-
  An optional has an element type, a label decides what
  fields a branch has, and the discriminator is a field.
-/
structure Schema.Proper
    (s : Schema) : Prop where
  element : s.kind = .optional → s.element.isSome = true
  branches :
    ∀ b ∈ s.branches, ∀ c ∈ s.branches, b.label = c.label →
      b.fields = c.fields
  discriminator :
    ∀ d ∈ s.discriminator, d.field ∈ s.fields.map Field.name

/- All schemas of a pool are proper. -/
def SchemaPool.Proper
    (p : SchemaPool) : Prop :=
  ∀ slot, (p.get slot).Proper

namespace Schema

variable {s : Schema}

/- A schema without a variant part that is no optional. -/
theorem proper_of_plain
    (hKind : s.kind ≠ .optional)
    (hBranches : s.branches = [])
    (hDisc : s.discriminator = none) :
    s.Proper := by
  refine ⟨fun hOptional => absurd hOptional hKind, ?_, ?_⟩
  · rw [hBranches]
    exact nofun
  · rw [hDisc]
    exact nofun

/- It does not matter what a schema describes. -/
theorem Proper.withDescriptor
    (h : s.Proper)
    (id : DescriptorId) :
    Proper { s with descriptor := some id } :=
  ⟨h.element, h.branches, h.discriminator⟩

/- A view has the branches and the elements of its source. -/
theorem Proper.view
    {p : SchemaPool}
    {source : SchemaId}
    (h : (p.get source).Proper)
    (kind : ViewKind)
    (name : String) :
    (p.view kind source name).Proper := by
  cases kind with
  | «alias» => exact ⟨h.element, h.branches, h.discriminator⟩
  | reference => exact ⟨nofun, h.branches, h.discriminator⟩

theorem proper_unknown
    (name : String) :
    (unknown name).Proper :=
  proper_of_plain nofun rfl rfl

/- An optional that is read as one has an element type. -/
theorem Proper.exists_element
    (h : s.Proper)
    (hKind : s.structuralKind = .optional) :
    ∃ element, s.element = some element := by
  apply Option.isSome_iff_exists.mp
  apply h.element
  unfold structuralKind at hKind
  split at hKind
  · split at hKind <;> cases hKind
  · exact hKind

/- A label of an owner leads to a branch with the field. -/
theorem Proper.exists_branch
    (h : s.Proper)
    {label name : String}
    (hOwner : label ∈ s.owners name) :
    ∃ b f, s.branch? label = some b ∧ b.field? name = some f := by
  rcases List.mem_map.mp hOwner with ⟨b, hb, hLabel⟩
  rcases List.mem_filter.mp hb with ⟨hMem, hField⟩
  -- Another branch with the label may come first.
  have hThere : (s.branch? label).isSome = true := by
    rw [branch?, List.find?_isSome]
    exact ⟨b, hMem, beq_iff_eq.mpr hLabel⟩
  rcases Option.isSome_iff_exists.mp hThere with ⟨c, hc⟩
  have hSame : c.label = label := by
    simpa using List.find?_some hc
  have hFields := h.branches b hMem c (List.mem_of_find?_eq_some hc)
    (hLabel.trans hSame.symm)
  rw [Branch.field?, hFields] at hField
  rcases Option.isSome_iff_exists.mp hField with ⟨f, hf⟩
  exact ⟨c, f, hc, hf⟩

/-
  A field that can be read is found, unless it is read of no
  branch at all.
-/
theorem Proper.exists_field
    (h : s.Proper)
    {pinned : Option (List Member)}
    {name : String}
    {span : Span}
    {field? : Option Field}
    (hReadable : s.readable pinned name span = .ok field?)
    (hPinned : pinned ≠ some []) :
    ∃ f, field? = some f := by
  rcases cases_of_readable hReadable with
    ⟨f, -, rfl⟩ | ⟨-, labels, rfl, rfl, hOwners⟩
  · exact ⟨f, rfl⟩
  · match labels, hPinned, hOwners with
    | l :: ls, _, hOwners =>
        rcases h.exists_branch (hOwners l List.mem_cons_self) with
          ⟨b, f, hBranch, hField⟩
        refine ⟨f, ?_⟩
        simp only [pinnedField?, List.head?_cons, Option.bind_eq_bind,
          Option.bind_some, hBranch, hField]

end Schema

/- Only an optional is given an element type it must have. -/
theorem Container.proper_schema
    (name : String)
    (kind : Container)
    (slots : List SchemaId) :
    (kind.schema name slots).Proper := by
  unfold Container.schema
  split
  · exact Schema.proper_of_plain nofun rfl rfl
  · exact Schema.proper_of_plain nofun rfl rfl
  · exact Schema.proper_of_plain nofun rfl rfl
  · exact Schema.proper_of_plain nofun rfl rfl
  · exact ⟨fun _ => rfl, nofun, nofun⟩
  · exact Schema.proper_unknown name

end MatchCompiler

------------------------------------------------------------
-- What Is Built
------------------------------------------------------------

namespace MatchCompiler

variable {t : TypeTable}
variable {r : Registry}
variable {env : List SchemaId}

/- An object starts from the branches of its base. -/
theorem Starts.proper
    {name : String}
    {o : ObjectShape}
    {s : Schema}
    (h : Starts t r env name o s)
    (hProper : r.pool.Proper) :
    s.Proper := by
  cases h with
  | root => exact Schema.proper_of_plain nofun rfl rfl
  | @derived base source p hBase hSource hSeen =>
      have hs : (p.get (p.unwrap source)).Proper := by
        rw [← hSeen.get_unwrap]
        exact hProper _
      unfold ObjectShape.start
      refine ⟨nofun, ?_, ?_⟩
      · dsimp only
        split
        · exact nofun
        · exact hs.branches
      · dsimp only
        split
        · exact nofun
        · exact hs.discriminator

/- The fields of a declared branch are chosen by its label. -/
theorem Varies.proper
    {origin : Origin}
    {s s' : Schema}
    {v : VariantPart}
    (h : Varies t r env origin s v s')
    (hs : s.Proper) :
    s'.Proper := by
  cases h with
  | mk hSlot hSeen hAdded hTagged =>
      refine ⟨hs.element, fun b hb c hc hSame => ?_, ?_⟩
      · rcases List.mem_map.mp hb with ⟨m, -, rfl⟩
        rcases List.mem_map.mp hc with ⟨m', -, rfl⟩
        have hName : m.name = m'.name := hSame
        dsimp only
        rw [hName]
      · rintro d ⟨⟩
        rw [List.map_append, List.mem_append]
        exact .inr List.mem_cons_self

theorem BuiltObject.proper
    {name : String}
    {origin : Origin}
    {o : ObjectShape}
    {s : Schema}
    (h : BuiltObject t r env name origin o s)
    (hProper : r.pool.Proper) :
    s.Proper := by
  have hFields :
      ∀ {s : Schema} {own : List Field}, Starts t r env name o s →
        Schema.Proper { s with fields := s.fields ++ own } := by
    intro s own hStart
    have hs := hStart.proper hProper
    refine ⟨hs.element, hs.branches, fun d hd => ?_⟩
    rw [List.map_append, List.mem_append]
    exact .inl (hs.discriminator d hd)
  cases h with
  | @plain s own hStart hOwn hVariant =>
      have hs : Schema.Proper { s with fields := s.fields ++ own } :=
        hFields hStart
      refine ⟨fun hKind => ?_, hs.branches, hs.discriminator⟩
      dsimp only at hKind
      split at hKind <;> cases hKind
  | variant hStart hOwn hVariant hVaries =>
      have hs := hVaries.proper (hFields hStart)
      exact ⟨nofun, hs.branches, hs.discriminator⟩

/- Whatever is built is proper, and so are views of it. -/
theorem Schema.law_proper :
    Schema.Law Schema.Proper where
  unknown := proper_unknown
  primitive := fun kind name => proper_of_plain nofun rfl rfl
  sequence := fun name element => proper_of_plain nofun rfl rfl
  described := fun id h => h.withDescriptor id
  view := fun kind source name h => h.view kind name
  built := by
    intro t x env id origin slot name shape s noted hBuilt hProper
    cases hBuilt with
    | primitive kind => exact proper_of_plain nofun rfl rfl
    | enumeration members => exact proper_of_plain nofun rfl rfl
    | unknown => exact proper_unknown name
    | misfit => exact proper_unknown name
    | container hArity hArgs => exact Container.proper_schema name _ _
    | tuple hFields => exact proper_of_plain nofun rfl rfl
    | object hObject => exact hObject.proper hProper
    | view hShape hSource hNoted => exact (hProper _).view _ name

end MatchCompiler

------------------------------------------------------------
-- Uses
------------------------------------------------------------

namespace MatchCompiler

namespace Registry

variable {r r' : Registry}

/- A settled registry all of whose schemas are proper. -/
structure Orderly
    (r : Registry) : Prop where
  settled : r.Settled
  proper : r.pool.Proper

theorem orderly_fresh
    (marker : Char) :
    Orderly { marker } :=
  ⟨settled_fresh marker, obeys_fresh Schema.law_proper marker⟩

/- However a registry is used, it stays in order. -/
theorem Later.orderly
    (hLater : r.Later r')
    (h : r.Orderly) :
    r'.Orderly :=
  ⟨(hLater.settled h.settled).1,
    hLater.obeys Schema.law_proper h.settled h.proper⟩

end Registry

end MatchCompiler
