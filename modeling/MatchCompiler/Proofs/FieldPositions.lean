import MatchCompiler.Proofs.SchemaLaws

/-
  This file shows what positions the fields of schemas have.

  The shared fields have the positions 0, 1, 2 and so on. The
  fields of a branch go on from the discriminator, which is
  the last shared field of the object that declares the
  variant part. An object that is derived from it takes over
  its branches as they are, and adds its own fields behind the
  discriminator. From then on they have the positions of
  fields of branches, so that positions are unambiguous in
  just those branches that have no fields, and where nothing
  was added.

  Key definitions include:
    * `NumberedFrom`
    * `Schema.SplitsAt`
    * `Schema.Numbered`
    * `ObjectShape.Adds`

  Key theorems include:
    * `Schema.SplitsAt.nodup_iff`
    * `BuiltObject.numbered`
    * `Registry.field_positions`
-/

------------------------------------------------------------
-- Consecutive Positions
------------------------------------------------------------

namespace MatchCompiler

/- Fields have consecutive positions. -/
def NumberedFrom
    (first : Nat)
    (fs : List Field) : Prop :=
  fs.map Field.position = List.range' first fs.length

instance
    (first : Nat)
    (fs : List Field) :
    Decidable (NumberedFrom first fs) :=
  inferInstanceAs (Decidable (_ = _))

namespace NumberedFrom

variable {first other : Nat}
variable {fs gs : List Field}

theorem nil : NumberedFrom first [] := rfl

/- Fields go on from the last position of others. -/
theorem append_iff :
    NumberedFrom first (fs ++ gs) ↔
      NumberedFrom first fs ∧ NumberedFrom (first + fs.length) gs := by
  unfold NumberedFrom
  rw [List.map_append, List.length_append, ← List.range'_append_1]
  constructor
  · intro hSame
    exact List.append_inj hSame (by simp)
  · rintro ⟨hFirst, hRest⟩
    rw [hFirst, hRest]

theorem nodup
    (h : NumberedFrom first fs) :
    (fs.map Field.position).Nodup := by
  rw [h]
  exact List.nodup_range'

/- The first position of fields is known. -/
theorem first_eq
    (h : NumberedFrom first fs)
    (h' : NumberedFrom other fs)
    (hSome : fs ≠ []) :
    first = other := by
  cases fs with
  | nil => exact absurd rfl hSome
  | cons f fs => exact (List.cons.inj (h.symm.trans h')).1

/- Fields that start at the same position share it. -/
theorem not_nodup
    (h : NumberedFrom first fs)
    (h' : NumberedFrom first gs)
    (hSome : fs ≠ [])
    (hSome' : gs ≠ []) :
    ¬ ((fs ++ gs).map Field.position).Nodup := by
  have hFirst :
      ∀ {fs : List Field}, NumberedFrom first fs → fs ≠ [] →
        first ∈ fs.map Field.position := by
    intro fs h hSome
    rw [h, List.mem_range'_1]
    have hPos := List.length_pos_iff.mpr hSome
    omega
  intro hNodup
  rw [List.map_append] at hNodup
  exact (List.nodup_append.mp hNodup).2.2 first (hFirst h hSome) first
    (hFirst h' hSome') rfl

end NumberedFrom

/- Declared fields are numbered and keep their names. -/
theorem Gives.numbered
    {t : TypeTable}
    {r : Registry}
    {env : List SchemaId}
    {position : Nat}
    {ds : List FieldDecl}
    {fs : List Field}
    (h : Gives t r env position ds fs) :
    NumberedFrom position fs ∧
    fs.map Field.name = ds.map FieldDecl.name := by
  induction h with
  | nil => exact ⟨.nil, rfl⟩
  | @cons position d slot ds fs hSlot hRest ih =>
      refine ⟨?_, ?_⟩
      · unfold NumberedFrom
        rw [List.map_cons, ih.1, List.length_cons, List.range'_succ]
      · rw [List.map_cons, ih.2, List.map_cons]

/- So are the fields of each declared branch. -/
theorem GivesBranches.numbered
    {t : TypeTable}
    {r : Registry}
    {env : List SchemaId}
    {position : Nat}
    {branches : List BranchDecl}
    {added : List (BranchSelector × List Field)}
    (h : GivesBranches t r env position branches added) :
    ∀ a ∈ added, NumberedFrom position a.2 := by
  unfold GivesBranches at h
  induction h with
  | nil => exact nofun
  | cons hGives _ ih =>
      exact List.forall_mem_cons.mpr ⟨hGives.2.numbered.1, ih⟩

end MatchCompiler

------------------------------------------------------------
-- Schemas With Branches
------------------------------------------------------------

namespace MatchCompiler

/-
  The shared fields of a schema fall into those up to the
  discriminator, from which every branch goes on, and those
  that were added behind it.
-/
structure Schema.SplitsAt
    (s : Schema)
    (upTo added : List Field) : Prop where
  fields : s.fields = upTo ++ added
  discriminator :
    ∃ d f, s.discriminator = some d ∧ upTo.getLast? = some f ∧
      f.name = d.field ∧ f.schema = d.schema
  branches : ∀ b ∈ s.branches, NumberedFrom upTo.length b.fields

/-
  The shared fields are numbered, and so are those of all
  branches. The fields that were added behind the
  discriminator, if there is one, have a property.
-/
structure Schema.Numbered
    (P : List Field → Prop)
    (s : Schema) : Prop where
  shared : NumberedFrom 0 s.fields
  branches :
    s.discriminator = none ∧ s.branches = [] ∨
    ∃ upTo added, s.SplitsAt upTo added ∧ P added

namespace Schema

variable {s s' : Schema}
variable {P : List Field → Prop}
variable {upTo added : List Field}

namespace SplitsAt

/- The fields up to the discriminator and those of a branch. -/
theorem dense
    (h : s.SplitsAt upTo added)
    (hShared : NumberedFrom 0 s.fields)
    {b : Branch}
    (hb : b ∈ s.branches) :
    NumberedFrom 0 (upTo ++ b.fields) := by
  rw [h.fields] at hShared
  refine NumberedFrom.append_iff.mpr
    ⟨(NumberedFrom.append_iff.mp hShared).1, ?_⟩
  rw [Nat.zero_add]
  exact h.branches b hb

/- A branch goes on from the shared fields. -/
theorem numberedFrom_iff
    (h : s.SplitsAt upTo added)
    {b : Branch}
    (hb : b ∈ s.branches) :
    NumberedFrom s.fields.length b.fields ↔
      added = [] ∨ b.fields = [] := by
  rw [h.fields, List.length_append]
  constructor
  · intro hAll
    by_cases hNone : b.fields = []
    · exact .inr hNone
    · have hEq := hAll.first_eq (h.branches b hb) hNone
      exact .inl (List.length_eq_zero_iff.mp (by omega))
  · rintro (rfl | hNone)
    · exact h.branches b hb
    · rw [hNone]
      exact .nil

/- No two fields that can be read have the same position. -/
theorem nodup_iff
    (h : s.SplitsAt upTo added)
    (hShared : NumberedFrom 0 s.fields)
    {b : Branch}
    (hb : b ∈ s.branches) :
    ((s.fields ++ b.fields).map Field.position).Nodup ↔
      added = [] ∨ b.fields = [] := by
  constructor
  · intro hNodup
    by_contra hSome
    rcases not_or.mp hSome with ⟨hAdded, hFields⟩
    rw [h.fields] at hShared
    have hBehind := (NumberedFrom.append_iff.mp hShared).2
    rw [Nat.zero_add] at hBehind
    refine hBehind.not_nodup (h.branches b hb) hAdded hFields ?_
    rw [h.fields, List.append_assoc, List.map_append] at hNodup
    exact (List.nodup_append.mp hNodup).2.1
  · intro hNone
    have hNext := (h.numberedFrom_iff hb).mpr hNone
    refine NumberedFrom.nodup (NumberedFrom.append_iff.mpr ⟨hShared, ?_⟩)
    rw [Nat.zero_add]
    exact hNext

/- More fields are added. -/
theorem append
    (h : s.SplitsAt upTo added)
    (own : List Field) :
    SplitsAt { s with fields := s.fields ++ own } upTo (added ++ own) := by
  refine ⟨?_, h.discriminator, h.branches⟩
  rw [← List.append_assoc, ← h.fields]

end SplitsAt

namespace Numbered

theorem mono
    {Q : List Field → Prop}
    (h : s.Numbered P)
    (hPQ : ∀ added, P added → Q added) :
    s.Numbered Q := by
  refine ⟨h.shared, h.branches.imp id ?_⟩
  rintro ⟨upTo, added, hSplits, hP⟩
  exact ⟨upTo, added, hSplits, hPQ added hP⟩

/- Only the fields, the branches and the discriminator matter. -/
theorem congr
    (h : s.Numbered P)
    (hFields : s'.fields = s.fields)
    (hBranches : s'.branches = s.branches)
    (hDisc : s'.discriminator = s.discriminator) :
    s'.Numbered P := by
  refine ⟨hFields ▸ h.shared, ?_⟩
  rw [hDisc, hBranches]
  refine h.branches.imp id ?_
  rintro ⟨upTo, added, hSplits, hP⟩
  refine ⟨upTo, added, ⟨?_, ?_, ?_⟩, hP⟩
  · rw [hFields, hSplits.fields]
  · rw [hDisc]
    exact hSplits.discriminator
  · rw [hBranches]
    exact hSplits.branches

/- A schema without branches. -/
theorem of_fields
    (hFields : NumberedFrom 0 s.fields)
    (hBranches : s.branches = [])
    (hDisc : s.discriminator = none) :
    s.Numbered P :=
  ⟨hFields, .inl ⟨hDisc, hBranches⟩⟩

end Numbered

end Schema

end MatchCompiler

------------------------------------------------------------
-- Objects
------------------------------------------------------------

namespace MatchCompiler

/- Any fields may have been added behind the discriminator. -/
def Schema.IsNumbered (s : Schema) : Prop :=
  s.Numbered fun _ => True

/-
  What an object adds behind the discriminator. If it has a
  variant part of its own, then the discriminator is its last
  shared field; otherwise the fields that it declares come
  behind the discriminator that it takes over.
-/
def ObjectShape.Adds
    (o : ObjectShape)
    (added : List Field) : Prop :=
  if o.variant.isSome then
    added = []
  else
    o.fields.map FieldDecl.name <:+ added.map Field.name

variable {t : TypeTable}
variable {r : Registry}
variable {env : List SchemaId}
variable {name : String}
variable {o : ObjectShape}
variable {s : Schema}

/- An object starts from fields that are numbered. -/
theorem Starts.isNumbered
    (h : Starts t r env name o s)
    (hPool : r.pool.Obeys Schema.IsNumbered) :
    s.IsNumbered := by
  cases h with
  | root => exact .of_fields .nil rfl rfl
  | @derived base source p hBase hSource hSeen =>
      have hs : (p.get (p.unwrap source)).IsNumbered := by
        rw [← hSeen.get_unwrap]
        exact hPool _
      cases hVariant : o.variant with
      | none =>
          exact hs.congr rfl (by simp [ObjectShape.start, hVariant])
            (by simp [ObjectShape.start, hVariant])
      | some v =>
          exact .of_fields hs.shared
            (by simp [ObjectShape.start, hVariant])
            (by simp [ObjectShape.start, hVariant])

/- Every branch goes on from the discriminator that is added. -/
theorem Varies.splitsAt
    {origin : Origin}
    {s' : Schema}
    {v : VariantPart}
    (h : Varies t r env origin s v s') :
    s'.SplitsAt s'.fields [] ∧
    (NumberedFrom 0 s.fields → NumberedFrom 0 s'.fields) := by
  cases h with
  | @mk slot p tagged added hSlot hSeen hAdded hTagged =>
      refine ⟨⟨(List.append_nil _).symm, ?_, ?_⟩, fun hShared => ?_⟩
      · exact ⟨_, _, rfl, List.getLast?_concat, rfl, rfl⟩
      · intro b hb
        rcases List.mem_map.mp hb with ⟨m, -, rfl⟩
        rw [List.length_append, List.length_singleton]
        exact foldl_selects hAdded.numbered .nil _ _
      · refine NumberedFrom.append_iff.mpr ⟨hShared, ?_⟩
        rw [Nat.zero_add]
        exact rfl

/- The fields of an object and of its branches are numbered. -/
theorem BuiltObject.numbered
    {origin : Origin}
    (h : BuiltObject t r env name origin o s)
    (hPool : r.pool.Obeys Schema.IsNumbered) :
    s.Numbered o.Adds := by
  have hShared :
      ∀ {s : Schema} {own : List Field}, s.IsNumbered →
        Gives t r env s.fields.length o.fields own →
        NumberedFrom 0 (s.fields ++ own) := by
    intro s own hs hOwn
    refine NumberedFrom.append_iff.mpr ⟨hs.shared, ?_⟩
    rw [Nat.zero_add]
    exact hOwn.numbered.1
  cases h with
  | @plain s own hStart hOwn hVariant =>
      have hs := hStart.isNumbered hPool
      refine ⟨hShared hs hOwn, hs.branches.imp id ?_⟩
      rintro ⟨upTo, added, hSplits, -⟩
      refine ⟨upTo, added ++ own, ?_, ?_⟩
      · have hMore := hSplits.append own
        exact ⟨hMore.fields, hMore.discriminator, hMore.branches⟩
      · simp only [ObjectShape.Adds, hVariant, Option.isSome_none,
          Bool.false_eq_true, if_false, List.map_append]
        rw [hOwn.numbered.2]
        exact List.suffix_append _ _
  | @variant s s' own v hStart hOwn hVariant hVaries =>
      have hs := hStart.isNumbered hPool
      rcases hVaries.splitsAt with ⟨hSplits, hNumbered⟩
      refine ⟨hNumbered (hShared hs hOwn), .inr ⟨s'.fields, [], ?_, ?_⟩⟩
      · exact ⟨hSplits.fields, hSplits.discriminator, hSplits.branches⟩
      · simp only [ObjectShape.Adds, hVariant, Option.isSome_some, if_true]

theorem Container.isNumbered_schema
    (name : String)
    (kind : Container)
    (slots : List SchemaId) :
    (kind.schema name slots).IsNumbered := by
  unfold Container.schema
  split <;> exact .of_fields .nil rfl rfl

/- The fields of all schemas are numbered. -/
theorem Schema.law_isNumbered :
    Schema.Law Schema.IsNumbered where
  unknown := fun name => .of_fields .nil rfl rfl
  primitive := fun kind name => .of_fields .nil rfl rfl
  sequence := fun name element => .of_fields .nil rfl rfl
  described := fun id h => h.congr rfl rfl rfl
  view := by
    intro p kind source name h
    cases kind <;> exact h.congr rfl rfl rfl
  built := by
    intro t x env id origin slot name shape s noted hBuilt hPool
    cases hBuilt with
    | primitive kind => exact .of_fields .nil rfl rfl
    | enumeration members => exact .of_fields .nil rfl rfl
    | unknown => exact .of_fields .nil rfl rfl
    | misfit => exact .of_fields .nil rfl rfl
    | container hArity hArgs => exact Container.isNumbered_schema _ _ _
    | tuple hFields => exact .of_fields hFields.numbered.1 rfl rfl
    | object hObject => exact (hObject.numbered hPool).mono fun _ _ => trivial
    | @view kind target source _ _ hShape hSource hNoted =>
        cases kind <;> exact (hPool source).congr rfl rfl rfl

end MatchCompiler

------------------------------------------------------------
-- Positions In Registries
------------------------------------------------------------

namespace MatchCompiler

namespace Registry

variable {t : TypeTable}
variable {r : Registry}

/-
  The fields that an object has are numbered, and what comes
  behind its discriminator is known.
-/
theorem exists_numbered
    (hBuilt : r.BuiltWith t)
    (slot : SchemaId) :
    (r.get slot).Numbered fun added =>
      ∀ key d o, r.cache.lookup key = some slot →
        t.get? key.descriptor = some d → d.shape = .object o →
        o.Adds added := by
  have hHolds := hBuilt.holdsShapes Schema.law_isNumbered
    (Q := fun shape s => ∀ o, shape = .object o → s.Numbered o.Adds) <| by
      rintro t x env id origin slot name shape s noted h hPool - o rfl
      cases h with
      | object hObject => exact (hObject.numbered hPool).congr rfl rfl rfl
      | @view kind _ _ _ _ hShape => cases kind <;> cases hShape
  have hConcrete :
      ∀ {id d o}, t.get? id = some d → d.shape = .object o →
        t.IsConcrete id :=
    fun hGet hShape => ⟨_, hGet, fun _ _ hGeneric =>
      nomatch hShape.symm.trans hGeneric⟩
  by_cases hSome :
      ∃ key d o, r.cache.lookup key = some slot ∧
        t.get? key.descriptor = some d ∧ d.shape = .object o
  · rcases hSome with ⟨key, d, o, hFound, hGet, hShape⟩
    have hNoView :
        ∀ (kind : ViewKind) target, d.shape ≠ kind.shape target := by
      rw [hShape]
      rintro (_ | _) target <;> exact nofun
    have hOwn := (hHolds.slots key slot hFound (hConcrete hGet hShape)
      nofun d hGet hNoView).2 o hShape
    refine hOwn.mono fun added hAdds key' d' o' hFound' hGet' hShape' => ?_
    cases hHolds.inheriting.coherent.own key key' slot hFound hFound'
      (hConcrete hGet hShape) (hConcrete hGet' hShape')
    cases hGet.symm.trans hGet'
    cases hShape.symm.trans hShape'
    exact hAdds
  · refine (hHolds.obeys slot).mono
      fun added _ key d o hFound hGet hShape => ?_
    exact absurd ⟨key, d, o, hFound, hGet, hShape⟩ hSome

/-
  The shared fields of every schema are numbered from 0. If
  there are branches, then the fields up to the discriminator
  and those of any branch are numbered without a gap; those
  of the branch go on from all shared fields, and no position
  is that of two fields, if and only if nothing was added
  behind the discriminator or the branch has no fields. An
  object that declares the variant part itself adds nothing;
  any other adds the fields that it declares.
-/
theorem field_positions
    (hBuilt : r.BuiltWith t)
    (slot : SchemaId) :
    NumberedFrom 0 (r.get slot).fields ∧
    ((r.get slot).branches = [] ∨
      ∃ upTo added, (r.get slot).SplitsAt upTo added ∧
        (∀ b ∈ (r.get slot).branches,
          NumberedFrom 0 (upTo ++ b.fields) ∧
          (NumberedFrom (r.get slot).fields.length b.fields ↔
            added = [] ∨ b.fields = []) ∧
          ((((r.get slot).fields ++ b.fields).map Field.position).Nodup ↔
            added = [] ∨ b.fields = [])) ∧
        ∀ key d o, r.cache.lookup key = some slot →
          t.get? key.descriptor = some d → d.shape = .object o →
          o.Adds added) := by
  rcases exists_numbered hBuilt slot with ⟨hShared, hBranches⟩
  refine ⟨hShared, ?_⟩
  rcases hBranches with ⟨-, hNone⟩ | ⟨upTo, added, hSplits, hAdds⟩
  · exact .inl hNone
  · refine .inr ⟨upTo, added, hSplits, fun b hb => ?_, hAdds⟩
    exact ⟨hSplits.dense hShared hb, hSplits.numberedFrom_iff hb,
      hSplits.nodup_iff hShared hb⟩

/- An object with a variant part, and one derived from it. -/
def widenedUnion : TypeTable :=
  { descriptors :=
      #[{ name := "Kind", shape := .enumeration [⟨"A", 0⟩, ⟨"B", 1⟩] },
        { name := "int", shape := .primitive .i64 },
        { name := "Base",
          shape := .object
            { fields := [⟨"x", .described 1, false⟩],
              inheritable := true,
              variant := some
                { discriminator := ⟨"kind", .described 0, false⟩,
                  branches :=
                    [{ selector := .labels ["A"],
                       fields := [⟨"a", .described 1, false⟩] }] } } },
        { name := "Derived",
          shape := .object
            { base := some (.described 2),
              fields := [⟨"y", .described 1, false⟩] } }] }

/- The registry after the derived object has been extracted. -/
def widenedUnionRegistry : Registry :=
  ((extract? {} widenedUnion 4 3).map Prod.fst).getD {}

theorem widenedUnion_extracted :
    Extracts {} widenedUnion 3 widenedUnionRegistry 0 :=
  extracts_of_map_snd (by decide +kernel)

/- Positions in the base are unambiguous. -/
theorem widenedUnion_base_positions :
    widenedUnionRegistry.BuiltWith widenedUnion ∧
    widenedUnionRegistry.cache.lookup ⟨2, []⟩ = some 1 ∧
    (widenedUnionRegistry.get 1).branches.map
      (fun b => b.fields.map Field.position) = [[2], []] ∧
    ∀ b ∈ (widenedUnionRegistry.get 1).branches,
      (((widenedUnionRegistry.get 1).fields ++ b.fields).map
        Field.position).Nodup := by
  have hBuilt : widenedUnionRegistry.BuiltWith widenedUnion :=
    .extract (.fresh 'k') widenedUnion_extracted
  have hFound : widenedUnionRegistry.cache.lookup ⟨2, []⟩ = some 1 := by
    decide +kernel
  refine ⟨hBuilt, hFound, by decide +kernel, fun b hb => ?_⟩
  rcases (field_positions hBuilt 1).2 with
    hNone | ⟨upTo, added, hSplits, hBranches, hAdds⟩
  · rw [hNone] at hb
    cases hb
  · exact (hBranches b hb).2.2.mpr (.inl (hAdds _ _ _ hFound rfl rfl))

/-
  In the derived object the field that it adds has the
  position of the field of a branch.
-/
theorem widenedUnion_derived_clashes :
    Extracts {} widenedUnion 3 widenedUnionRegistry 0 ∧
    ((widenedUnionRegistry.get 0).fields.map fun f =>
      (f.name, f.position)) = [("x", 0), ("kind", 1), ("y", 2)] ∧
    ∃ b ∈ (widenedUnionRegistry.get 0).branches,
      (b.fields.map fun f => (f.name, f.position)) = [("a", 2)] ∧
      ¬ NumberedFrom (widenedUnionRegistry.get 0).fields.length b.fields ∧
      ¬ (((widenedUnionRegistry.get 0).fields ++ b.fields).map
        Field.position).Nodup :=
  ⟨widenedUnion_extracted, by decide +kernel, by decide +kernel⟩

end Registry

end MatchCompiler
