import MatchCompiler.Proofs.Unwrapping
import Mathlib.Data.Nat.Basic
import Mathlib.Order.Basic

/-
  This file shows that a registry is closed: whatever slot it
  mentions is a slot of its pool.

  Slots are mentioned by the schemas in other slots, by the
  keys and entries of the cache and by those of the shared
  schemas. They are mentioned long before they are filled,
  and copied into views and derived objects, so that the
  invariant is one of every state of an extraction. It comes
  with an account of the slots: each is waiting to be filled,
  or has been filled, or holds a shared schema.

  Key definitions include:
    * `Schema.Within`
    * `SchemaPool.Closed`
    * `Registry.Closed`
    * `SchemaPool.FilledBut`
    * `Extraction.Closed`
    * `Registry.Use`
    * `Registry.Later`

  Key theorems include:
    * `Built.within`
    * `Move.closed`
    * `Registry.Extracts.settled`
    * `Registry.Later.settled`
-/

------------------------------------------------------------
-- Schemas
------------------------------------------------------------

namespace MatchCompiler

/- Whatever slot a schema mentions is below a bound. -/
structure Schema.Within
    (s : Schema)
    (bound : Nat) : Prop where
  fields : ∀ f ∈ s.fields, f.schema < bound
  branches : ∀ b ∈ s.branches, ∀ f ∈ b.fields, f.schema < bound
  discriminator : ∀ d ∈ s.discriminator, d.schema < bound
  element : ∀ slot ∈ s.element, slot < bound
  key : ∀ slot ∈ s.key, slot < bound
  value : ∀ slot ∈ s.value, slot < bound
  ancestors : ∀ slot ∈ s.ancestors, slot < bound
  target : ∀ slot ∈ s.target, slot < bound

/- Whatever slot a key of shared schemas mentions. -/
def SyntheticKey.Within
    (bound : Nat) : SyntheticKey → Prop
| .sequenceOf element => element < bound
| .primitive _ | .unknown => True

/- A branch has no fields, or those of one that was declared. -/
theorem foldl_selects
    {P : List Field → Prop}
    {added : List (BranchSelector × List Field)}
    (hAdded : ∀ a ∈ added, P a.2)
    {start : List Field}
    (hStart : P start)
    (named : List String)
    (label : String) :
    P (added.foldl
      (fun fs (sel, own) => if sel.selects named label then own else fs)
      start) := by
  induction added generalizing start with
  | nil => exact hStart
  | cons a as ih =>
      rcases List.forall_mem_cons.mp hAdded with ⟨hOwn, hRest⟩
      refine ih hRest ?_
      dsimp only
      split
      · exact hOwn
      · exact hStart

namespace Schema

variable {s : Schema}
variable {bound bound' : Nat}

theorem Within.mono
    (h : s.Within bound)
    (hLe : bound ≤ bound') :
    s.Within bound' where
  fields f hf := (h.fields f hf).trans_le hLe
  branches b hb f hf := (h.branches b hb f hf).trans_le hLe
  discriminator d hd := (h.discriminator d hd).trans_le hLe
  element slot hSlot := (h.element slot hSlot).trans_le hLe
  key slot hSlot := (h.key slot hSlot).trans_le hLe
  value slot hSlot := (h.value slot hSlot).trans_le hLe
  ancestors slot hSlot := (h.ancestors slot hSlot).trans_le hLe
  target slot hSlot := (h.target slot hSlot).trans_le hLe

/- The descriptor of a schema is no slot. -/
theorem Within.withDescriptor
    (h : s.Within bound)
    (id : DescriptorId) :
    Within { s with descriptor := some id } bound :=
  ⟨h.fields, h.branches, h.discriminator, h.element, h.key, h.value,
    h.ancestors, h.target⟩

/- The kind and further fields of an object. -/
theorem Within.withKind
    (h : s.Within bound)
    (kind : SchemaKind) :
    Within { s with kind } bound :=
  ⟨h.fields, h.branches, h.discriminator, h.element, h.key, h.value,
    h.ancestors, h.target⟩

theorem Within.withFields
    (h : s.Within bound)
    {own : List Field}
    (hOwn : ∀ f ∈ own, f.schema < bound) :
    Within { s with fields := s.fields ++ own } bound :=
  ⟨List.forall_mem_append.mpr ⟨h.fields, hOwn⟩, h.branches,
    h.discriminator, h.element, h.key, h.value, h.ancestors, h.target⟩

/- What is taken over from a base mentions slots. -/
theorem Within.derived
    (h : s.Within bound)
    {id : SchemaId}
    (hId : id < bound)
    (name : String)
    (own : Bool) :
    (s.derived name id own).Within bound := by
  refine ⟨h.fields, ?_, ?_, nofun, nofun, nofun,
    List.forall_mem_cons.mpr ⟨hId, h.ancestors⟩, nofun⟩
  · cases own with
    | true => exact nofun
    | false => exact h.branches
  · cases own with
    | true => exact nofun
    | false => exact h.discriminator

/- So does what a variant part adds. -/
theorem Within.withVariant
    (h : s.Within bound)
    {slot : SchemaId}
    (hSlot : slot < bound)
    {added : List (BranchSelector × List Field)}
    (hAdded : ∀ a ∈ added, ∀ f ∈ a.2, f.schema < bound)
    (origin : Origin)
    (v : VariantPart)
    (domain : List Member)
    (marker : Char) :
    (s.withVariant origin v slot domain added marker).Within bound := by
  refine ⟨?_, ?_, ?_, h.element, h.key, h.value, h.ancestors, h.target⟩
  · exact List.forall_mem_append.mpr
      ⟨h.fields, List.forall_mem_singleton.mpr hSlot⟩
  · intro b hb
    rcases List.mem_map.mp hb with ⟨m, -, rfl⟩
    exact foldl_selects (P := fun fs => ∀ f ∈ fs, f.schema < bound) hAdded
      (List.forall_mem_nil _) _ _
  · rintro d hd
    cases hd
    exact hSlot

theorem within_unknown
    (name : String)
    (bound : Nat) :
    (unknown name).Within bound :=
  ⟨nofun, nofun, nofun, nofun, nofun, nofun, nofun, nofun⟩

theorem within_ofPrimitive
    (kind : Primitive)
    (name : String)
    (bound : Nat) :
    (ofPrimitive kind name).Within bound :=
  ⟨nofun, nofun, nofun, nofun, nofun, nofun, nofun, nofun⟩

/- A schema that mentions no slot but those of its fields. -/
theorem within_ofFields
    {kind : SchemaKind}
    {name : String}
    {flags : SchemaFlags}
    {fields : List Field}
    (h : ∀ f ∈ fields, f.schema < bound) :
    Within { kind, name, flags, fields } bound :=
  ⟨h, nofun, nofun, nofun, nofun, nofun, nofun, nofun⟩

/- A schema that mentions no slot but that of its elements. -/
theorem within_ofElement
    {kind : SchemaKind}
    {name : String}
    {arrayLength : Option Nat}
    {slot : SchemaId}
    (h : slot < bound) :
    Within { kind, name, element := some slot, arrayLength } bound where
  fields := nofun
  branches := nofun
  discriminator := nofun
  element _ hSlot := Option.some.inj hSlot ▸ h
  key := nofun
  value := nofun
  ancestors := nofun
  target := nofun

end Schema

theorem SyntheticKey.Within.mono
    {bound bound' : Nat}
    {key : SyntheticKey}
    (h : key.Within bound)
    (hLe : bound ≤ bound') :
    key.Within bound' := by
  cases key with
  | sequenceOf element => exact Nat.lt_of_lt_of_le h hLe
  | primitive kind => trivial
  | unknown => trivial

/- A container mentions the slots of its arguments. -/
theorem Container.within_schema
    (name : String)
    (kind : Container)
    {slots : List SchemaId}
    {bound : Nat}
    (h : ∀ slot ∈ slots, slot < bound) :
    (kind.schema name slots).Within bound := by
  unfold Container.schema
  split
  · rename_i key value
    have hKey := h key (by simp)
    have hValue := h value (by simp)
    exact
      { fields := nofun
        branches := nofun
        discriminator := nofun
        element := nofun
        key := fun slot hSlot => Option.some.inj hSlot ▸ hKey
        value := fun slot hSlot => Option.some.inj hSlot ▸ hValue
        ancestors := nofun
        target := nofun }
  · exact Schema.within_ofElement (h _ (List.mem_singleton_self _))
  · exact Schema.within_ofElement (h _ (List.mem_singleton_self _))
  · exact Schema.within_ofElement (h _ (List.mem_singleton_self _))
  · exact Schema.within_ofElement (h _ (List.mem_singleton_self _))
  · exact Schema.within_unknown name bound

end MatchCompiler

------------------------------------------------------------
-- Pools
------------------------------------------------------------

namespace MatchCompiler

namespace SchemaPool

/- Whatever slot a pool mentions is a slot of it. -/
structure Closed
    (p : SchemaPool) : Prop where
  slots : ∀ slot, (p.get slot).Within p.size
  shared : ∀ e ∈ p.synthetic, e.1.Within p.size ∧ e.2 < p.size

/-
  All slots have been filled, or hold a shared schema, except
  for some. A schema that fills a slot has a descriptor, and
  what stands there until then has none.
-/
def FilledBut
    (p : SchemaPool)
    (pending : List SchemaId) : Prop :=
  ∀ slot < p.size,
    slot ∈ pending ∨ (p.get slot).descriptor.isSome = true ∨
      slot ∈ p.synthetic.map Prod.snd

variable {p : SchemaPool}
variable {slot : SchemaId}
variable {s : Schema}
variable {pending : List SchemaId}

namespace Closed

/- A closed pool keeps to itself when a slot is added. -/
theorem push
    (h : p.Closed)
    (hs : s.Within (p.size + 1)) :
    (p.push s).1.Closed := by
  have hLe : p.size ≤ p.size + 1 := Nat.le_succ _
  refine ⟨fun slot => ?_, fun e he => ?_⟩
  · rw [size_push]
    by_cases hNew : slot = p.size
    · rw [hNew, get_push_self]
      exact hs
    · rw [get_push_of_ne hNew]
      exact (h.slots slot).mono hLe
  · rw [size_push]
    rcases h.shared e he with ⟨hKey, hLt⟩
    exact ⟨hKey.mono hLe, hLt.trans_le hLe⟩

theorem fill
    (h : p.Closed)
    (slot : SchemaId)
    (hs : s.Within p.size) :
    (p.fill slot s).Closed := by
  refine ⟨fun other => ?_, fun e he => ?_⟩
  · rw [size_fill]
    by_cases hSame : slot = other
    · subst hSame
      by_cases hLt : slot < p.size
      · rw [get_fill_self hLt]
        exact hs
      · have hLe : (p.fill slot s).size ≤ slot := by
          rw [size_fill]
          exact Nat.le_of_not_lt hLt
        rw [get_of_le hLe]
        exact Schema.within_unknown "" _
    · rw [get_fill_of_ne hSame]
      exact h.slots other
  · rw [size_fill]
    exact h.shared e he

/- A shared schema has a slot of the pool. -/
theorem share
    (h : p.Closed)
    (key : SyntheticKey)
    (hKey : key.Within p.size)
    (hs : s.Within p.size) :
    (p.share key s).1.Closed ∧
    (p.share key s).2 < (p.share key s).1.size := by
  unfold SchemaPool.share
  cases hFound : p.synthetic.lookup key with
  | some id =>
      rcases List.lookup_eq_some_iff.mp hFound with ⟨l, l', hSplit, -⟩
      refine ⟨h, (h.shared (key, id) ?_).2⟩
      rw [hSplit]
      exact List.mem_append_right l List.mem_cons_self
  | none =>
      have hLe : p.size ≤ p.size + 1 := Nat.le_succ _
      have hPushed := h.push (hs.mono hLe)
      have hSize := p.size_push s
      have hNew : p.size < (p.push s).1.size := by omega
      refine ⟨⟨hPushed.slots, fun e he => ?_⟩, hNew⟩
      rcases List.mem_cons.mp he with rfl | he
      · refine ⟨hKey.mono ?_, hNew⟩
        exact Nat.le_of_lt hNew
      · exact hPushed.shared e he

theorem targetsWithin
    (h : p.Closed) :
    p.TargetsWithin :=
  fun slot => (h.slots slot).target

/- A view mentions its source and what its source mentions. -/
theorem view
    (h : p.Closed)
    (kind : ViewKind)
    {source : SchemaId}
    (hSource : source < p.size)
    (name : String) :
    (p.view kind source name).Within p.size := by
  have hs := h.slots source
  have hTarget : ∀ slot ∈ some source, slot < p.size :=
    fun slot hSlot => Option.some.inj hSlot ▸ hSource
  cases kind with
  | «alias» =>
      exact ⟨hs.fields, hs.branches, hs.discriminator, hs.element, hs.key,
        hs.value, hs.ancestors, hTarget⟩
  | reference =>
      exact ⟨hs.fields, hs.branches, hs.discriminator, nofun, nofun, nofun,
        hs.ancestors, hTarget⟩

end Closed

namespace FilledBut

/- A slot that waits to be filled is added. -/
theorem push
    (h : p.FilledBut pending)
    (s : Schema) :
    (p.push s).1.FilledBut (p.size :: pending) := by
  intro slot hSlot
  by_cases hNew : slot = p.size
  · exact .inl (List.mem_cons.mpr (.inl hNew))
  · rw [size_push] at hSlot
    rw [get_push_of_ne hNew]
    refine (h slot (by omega)).imp_left ?_
    exact List.mem_cons_of_mem _

theorem share
    (h : p.FilledBut pending)
    (key : SyntheticKey)
    (s : Schema) :
    (p.share key s).1.FilledBut pending := by
  unfold SchemaPool.share
  cases hFound : p.synthetic.lookup key with
  | some id => exact h
  | none =>
      intro slot hSlot
      rcases h.push s slot hSlot with hMem | hFilled | hShared
      · rcases List.mem_cons.mp hMem with rfl | hMem
        · exact .inr (.inr (List.mem_cons_self))
        · exact .inl hMem
      · exact .inr (.inl hFilled)
      · exact .inr (.inr (List.mem_cons_of_mem _ hShared))

/- A slot is filled. -/
theorem fill
    (h : p.FilledBut (slot :: pending))
    (hs : s.descriptor.isSome = true) :
    (p.fill slot s).FilledBut pending := by
  intro other hOther
  rw [size_fill] at hOther
  by_cases hSame : slot = other
  · subst hSame
    rw [get_fill_self hOther]
    exact .inr (.inl hs)
  · rw [get_fill_of_ne hSame]
    refine (h other hOther).imp_left fun hMem => ?_
    exact (List.mem_cons.mp hMem).resolve_left (Ne.symm hSame)

theorem of_subset
    {pending' : List SchemaId}
    (h : p.FilledBut pending)
    (hSubset : pending ⊆ pending') :
    p.FilledBut pending' :=
  fun slot hSlot => (h slot hSlot).imp_left fun hMem => hSubset hMem

end FilledBut

/- Unwrapping does not leave a closed pool. -/
theorem Closed.unwrap_lt
    (h : p.Closed)
    (hSlot : slot < p.size) :
    p.unwrap slot < p.size :=
  unwrap_keeps (P := fun slot => slot < p.size)
    (fun a b _ hTarget => (h.slots a).target b hTarget) hSlot

theorem Closed.follow_lt
    (h : p.Closed)
    (hSlot : slot < p.size)
    (through : Schema → Bool)
    (fuel : Nat) :
    p.follow through fuel slot < p.size :=
  follow_keeps (P := fun slot => slot < p.size)
    (fun a b _ hTarget => (h.slots a).target b hTarget) through fuel hSlot

end SchemaPool

end MatchCompiler

------------------------------------------------------------
-- Registries
------------------------------------------------------------

namespace MatchCompiler

namespace Registry

/- Whatever slot a registry mentions is a slot of its pool. -/
structure Closed
    (r : Registry) : Prop where
  pool : r.pool.Closed
  cache :
    ∀ e ∈ r.cache, e.2 < r.pool.size ∧ ∀ arg ∈ e.1.args, arg < r.pool.size

/- A closed registry none of whose slots wait to be filled. -/
structure Settled
    (r : Registry) : Prop where
  closed : r.Closed
  filled : r.pool.FilledBut []

variable {r : Registry}

/- The pool has changed, and is no smaller. -/
theorem Closed.withPool
    (h : r.Closed)
    {p : SchemaPool}
    (hPool : p.Closed)
    (hLe : r.pool.size ≤ p.size) :
    Closed { r with pool := p } := by
  refine ⟨hPool, fun e he => ?_⟩
  rcases h.cache e he with ⟨hSlot, hArgs⟩
  exact ⟨hSlot.trans_le hLe, fun arg hArg => (hArgs arg hArg).trans_le hLe⟩

/- A slot of the pool is remembered. -/
theorem Closed.remember
    (h : r.Closed)
    {key : ExtractionKey}
    {slot : SchemaId}
    (hSlot : slot < r.pool.size)
    (hArgs : ∀ arg ∈ key.args, arg < r.pool.size) :
    Closed { r with cache := (key, slot) :: r.cache } := by
  refine ⟨h.pool, fun e he => ?_⟩
  rcases List.mem_cons.mp he with rfl | he
  · exact ⟨hSlot, hArgs⟩
  · exact h.cache e he

theorem Closed.bounded
    (h : r.Closed) :
    r.Bounded := by
  refine ⟨fun key slot hFound => ?_, fun key slot hFound => ?_,
    h.pool.targetsWithin⟩
  · rcases List.lookup_eq_some_iff.mp hFound with ⟨l, l', hSplit, -⟩
    refine (h.cache (key, slot) ?_).1
    rw [hSplit]
    exact List.mem_append_right l List.mem_cons_self
  · rcases List.lookup_eq_some_iff.mp hFound with ⟨l, l', hSplit, -⟩
    refine (h.pool.shared (key, slot) ?_).2
    rw [hSplit]
    exact List.mem_append_right l List.mem_cons_self

/- The arguments of a key are among those in scope. -/
theorem IsKey.args_lt
    {id : DescriptorId}
    {env : List SchemaId}
    {key : ExtractionKey}
    (h : r.IsKey id env key)
    (hEnv : ∀ s ∈ env, s < r.pool.size) :
    ∀ arg ∈ key.args, arg < r.pool.size := by
  rcases h with ⟨parametric, -, rfl⟩
  cases parametric with
  | true => exact hEnv
  | false => exact nofun

/- Nothing is mentioned at the start. -/
theorem settled_fresh
    (marker : Char) :
    Settled { marker } := by
  refine ⟨⟨⟨fun slot => ?_, nofun⟩, nofun⟩, nofun⟩
  rw [SchemaPool.get_of_le (Nat.zero_le slot)]
  exact Schema.within_unknown "" _

end Registry

/- An extraction mentions only slots of its pool. -/
structure Extraction.Closed
    (x : Extraction) : Prop where
  registry : x.registry.Closed
  filled : x.registry.pool.FilledBut x.pending
  pending : ∀ slot ∈ x.pending, slot < x.registry.pool.size
  views :
    ∀ v ∈ x.views,
      v.slot < x.registry.pool.size ∧ v.source < x.registry.pool.size

end MatchCompiler

------------------------------------------------------------
-- What Is Built
------------------------------------------------------------

namespace MatchCompiler

variable {t : TypeTable}
variable {r : Registry}
variable {env : List SchemaId}

/- Fields are given slots that have been found. -/
theorem Gives.within
    {position : Nat}
    {ds : List FieldDecl}
    {fs : List Field}
    (h : Gives t r env position ds fs)
    (hBounded : r.Bounded)
    (hEnv : ∀ s ∈ env, s < r.pool.size) :
    ∀ f ∈ fs, f.schema < r.pool.size := by
  induction h with
  | nil => exact nofun
  | cons hSlot _ ih =>
      exact List.forall_mem_cons.mpr ⟨hSlot.lt hBounded hEnv, ih⟩

/-
  An object starts from what its base mentioned when it was
  read; the pool has only grown since.
-/
theorem Starts.within
    {name : String}
    {o : ObjectShape}
    {s : Schema}
    (h : Starts t r env name o s)
    (hClosed : r.Closed) :
    s.Within r.pool.size := by
  cases h with
  | root => exact Schema.within_ofFields nofun
  | @derived base source p hBase hSource hSeen =>
      have hs : (p.get (p.unwrap source)).Within r.pool.size := by
        rw [← hSeen.get_unwrap]
        exact hClosed.pool.slots _
      have hLt := hSeen.unwrap_lt.trans_le hSeen.grows.size_le
      exact hs.derived hLt name _

/- The fields that declared branches add have been found. -/
theorem GivesBranches.within
    {position : Nat}
    {branches : List BranchDecl}
    {added : List (BranchSelector × List Field)}
    (h : GivesBranches t r env position branches added)
    (hBounded : r.Bounded)
    (hEnv : ∀ s ∈ env, s < r.pool.size) :
    ∀ a ∈ added, ∀ f ∈ a.2, f.schema < r.pool.size := by
  unfold GivesBranches at h
  induction h with
  | nil => exact nofun
  | cons hGives _ ih =>
      refine List.forall_mem_cons.mpr ⟨?_, ih⟩
      exact hGives.2.within hBounded hEnv

theorem Varies.within
    {origin : Origin}
    {s s' : Schema}
    {v : VariantPart}
    (h : Varies t r env origin s v s')
    (hBounded : r.Bounded)
    (hEnv : ∀ s ∈ env, s < r.pool.size)
    (hs : s.Within r.pool.size) :
    s'.Within r.pool.size := by
  cases h with
  | @mk slot p tagged added hSlot hSeen hAdded hTagged =>
      have hLt := hSlot.lt hBounded hEnv
      have hOwn := hAdded.within hBounded hEnv
      have h := hs.withVariant hLt hOwn origin v
        (p.labelDomain slot v.branches) r.marker
      exact ⟨h.fields, h.branches, h.discriminator, h.element, h.key,
        h.value, h.ancestors, h.target⟩

theorem BuiltObject.within
    {name : String}
    {origin : Origin}
    {o : ObjectShape}
    {s : Schema}
    (h : BuiltObject t r env name origin o s)
    (hClosed : r.Closed)
    (hEnv : ∀ s ∈ env, s < r.pool.size) :
    s.Within r.pool.size := by
  have hBounded := hClosed.bounded
  -- The kind is set last, and the own fields are added first.
  cases h with
  | plain hStart hOwn hVariant =>
      have hFields := (hStart.within hClosed).withFields
        (hOwn.within hBounded hEnv)
      exact hFields.withKind _
  | variant hStart hOwn hVariant hVaries =>
      have hFields := (hStart.within hClosed).withFields
        (hOwn.within hBounded hEnv)
      exact (hVaries.within hBounded hEnv hFields).withKind _

/- What is built mentions only slots that have been found. -/
theorem Built.within
    {x : Extraction}
    {id : DescriptorId}
    {origin : Origin}
    {slot : SchemaId}
    {name : String}
    {shape : Shape}
    {s : Schema}
    {noted : List View}
    (h : Built t x env id origin slot name shape s noted)
    (hClosed : x.registry.Closed)
    (hEnv : ∀ s ∈ env, s < x.registry.pool.size) :
    s.Within x.registry.pool.size := by
  have hBounded := hClosed.bounded
  cases h with
  | primitive kind => exact Schema.within_ofPrimitive kind name _
  | enumeration members =>
      exact ⟨nofun, nofun, nofun, nofun, nofun, nofun, nofun, nofun⟩
  | unknown => exact Schema.within_unknown name _
  | misfit => exact Schema.within_unknown name _
  | container hArity hArgs =>
      exact Container.within_schema name _
        (Registry.Finds.all_lt hArgs hBounded hEnv)
  | tuple hFields =>
      exact Schema.within_ofFields (hFields.within hBounded hEnv)
  | object hObject => exact hObject.within hClosed hEnv
  | view hShape hSource hNoted =>
      exact hClosed.pool.view _ (hSource.lt hBounded hEnv) name

end MatchCompiler

------------------------------------------------------------
-- Moves
------------------------------------------------------------

namespace MatchCompiler

/- Every move of an extraction keeps it closed. -/
theorem Move.closed
    {t : TypeTable}
    {x y : Extraction}
    (h : Move t x y)
    (hClosed : x.Closed) :
    y.Closed := by
  have hRegistry := hClosed.registry
  have hBounded := hRegistry.bounded
  cases h with
  | memo =>
      exact ⟨⟨hRegistry.pool, hRegistry.cache⟩, hClosed.filled,
        hClosed.pending, hClosed.views⟩
  | hit =>
      exact ⟨⟨hRegistry.pool, hRegistry.cache⟩, hClosed.filled,
        hClosed.pending, hClosed.views⟩
  | miss =>
      exact ⟨⟨hRegistry.pool, hRegistry.cache⟩, hClosed.filled,
        hClosed.pending, hClosed.views⟩
  | unknown =>
      have hLe := (x.registry.pool.grows_share .unknown
        (Schema.unknown "<unknown>")).size_le
      have hPool := hRegistry.pool.share .unknown trivial
        (Schema.within_unknown "<unknown>" _)
      refine ⟨hRegistry.withPool hPool.1 hLe, hClosed.filled.share _ _,
        fun slot hSlot => ?_, fun v hv => ?_⟩
      · exact (hClosed.pending slot hSlot).trans_le hLe
      · rcases hClosed.views v hv with ⟨hSlot, hSource⟩
        exact ⟨hSlot.trans_le hLe, hSource.trans_le hLe⟩
  | @reserve id d env key hGet hGeneric hKey hNone hEnv =>
      have hSize := x.registry.pool.size_push (Schema.unknown d.name)
      have hLe := (x.registry.pool.grows_push
        (Schema.unknown d.name)).size_le
      have hNew :
          x.registry.pool.size <
            (x.registry.pool.push (Schema.unknown d.name)).1.size := by
        omega
      have hPool := hRegistry.pool.push (Schema.within_unknown d.name _)
      refine ⟨(hRegistry.withPool hPool hLe).remember hNew ?_,
        hClosed.filled.push _, ?_, fun v hv => ?_⟩
      · intro arg hArg
        exact (hKey.args_lt hEnv arg hArg).trans_le hLe
      · refine List.forall_mem_cons.mpr ⟨hNew, fun slot hSlot => ?_⟩
        exact (hClosed.pending slot hSlot).trans_le hLe
      · rcases hClosed.views v hv with ⟨hSlot, hSource⟩
        exact ⟨hSlot.trans_le hLe, hSource.trans_le hLe⟩
  | @remember id d env key template args slots slot hGet hGeneric hKey
      hArgs hTemplate hEnv =>
      have hSlots := Registry.Finds.all_lt hArgs hBounded hEnv
      exact ⟨hRegistry.remember (hTemplate.lt hBounded hSlots)
          (hKey.args_lt hEnv), hClosed.filled, hClosed.pending,
        hClosed.views⟩
  | @fill id d env key slot rest name s noted hGet hKey hSlot hPending
      hStacked hEnv hName hBuilt =>
      have hSize := x.registry.pool.size_fill slot
        { s with descriptor := some id }
      have hs := (hBuilt.within hRegistry hEnv).withDescriptor id
      have hNoted := (hBuilt.target_lt hBounded hEnv).2
      have hLt := hBounded.cache key slot hSlot
      have hRest : x.pending.erase slot = rest := by simp [hPending]
      have hFilled := hClosed.filled
      rw [hPending] at hFilled
      refine ⟨hRegistry.withPool (hRegistry.pool.fill slot hs) hSize.ge,
        ?_, fun other hOther => ?_, fun v hv => ?_⟩
      · change SchemaPool.FilledBut _ (x.pending.erase slot)
        rw [hRest]
        exact hFilled.fill rfl
      · exact (hClosed.pending other (List.mem_of_mem_erase hOther)).trans_eq
          hSize.symm
      · rcases List.mem_append.mp hv with hv | hv
        · rcases hClosed.views v hv with ⟨hOwn, hSource⟩
          exact ⟨hOwn.trans_eq hSize.symm, hSource.trans_eq hSize.symm⟩
        · rw [hBuilt.slot_of_noted hv]
          exact ⟨hLt.trans_eq hSize.symm,
            (hNoted v hv).trans_eq hSize.symm⟩

/- Rebuilding views keeps a pool closed and its slots filled. -/
theorem View.closed_completeAll
    {views : List View}
    {p : SchemaPool}
    (hClosed : p.Closed)
    (hFilled : p.FilledBut [])
    (hViews : ∀ v ∈ views, v.source < p.size) :
    (completeAll views p).Closed ∧ (completeAll views p).FilledBut [] := by
  let Kept : SchemaPool → Prop := fun q =>
    q.size = p.size ∧ q.Closed ∧ q.FilledBut []
  suffices Kept (completeAll views p) from this.2
  refine completeAll_keeps (P := Kept) ?_ ⟨rfl, hClosed, hFilled⟩
  rintro q v hv ⟨hSize, hClosed, hFilled⟩
  have hSource : v.source < q.size := hSize ▸ hViews v hv
  have hs : (v.rebuilt q).Within q.size :=
    (hClosed.view v.kind hSource v.name).withDescriptor v.descriptor
  refine ⟨(SchemaPool.size_fill _ _ _).trans hSize,
    hClosed.fill v.slot hs, ?_⟩
  exact (hFilled.of_subset (List.nil_subset _)).fill rfl

end MatchCompiler

------------------------------------------------------------
-- Uses
------------------------------------------------------------

namespace MatchCompiler

namespace Registry

variable {r r' : Registry}
variable {slot : SchemaId}

/-
  A registry is used: the schema of a descriptor is extracted
  from any table, or a schema is shared. Sequences are shared
  for elements that have a slot.
-/
inductive Use
    (r : Registry) : Registry → SchemaId → Prop
| extract
    {t : TypeTable}
    {id : DescriptorId}
    {r' : Registry}
    {slot : SchemaId}
    (hExtracts : r.Extracts t id r' slot) :
    Use r r' slot
| primitive
    (kind : Primitive) :
    Use r { r with pool := (r.pool.primitive kind).1 }
      (r.pool.primitive kind).2
| sequenceOf
    {element : SchemaId}
    (hElement : element < r.pool.size) :
    Use r { r with pool := (r.pool.sequenceOf element).1 }
      (r.pool.sequenceOf element).2
| unknown :
    Use r { r with pool := r.pool.unknown.1 } r.pool.unknown.2

/- A registry after any number of uses. -/
def Later : Registry → Registry → Prop :=
  Relation.ReflTransGen fun r r' => ∃ slot, Use r r' slot

/- Looking up a schema is a use, whether or not it ends. -/
theorem use_schemaWithin
    (r : Registry)
    (t : TypeTable)
    (depth : Nat)
    (id : DescriptorId) :
    r.Use (r.schemaWithin t depth id).1 (r.schemaWithin t depth id).2 := by
  unfold schemaWithin
  cases hEnds : r.extract? t (depth + 1) id with
  | some result => exact .extract ⟨depth + 1, hEnds⟩
  | none => exact .unknown

theorem use_schemaOf
    (r : Registry)
    (t : TypeTable)
    (id : DescriptorId) :
    r.Use (r.schemaOf t id).1 (r.schemaOf t id).2 :=
  r.use_schemaWithin t (depthLimit t) id

/- An extraction is closed at all times. -/
theorem Settled.closed_moves
    (h : r.Settled)
    {t : TypeTable}
    {x : Extraction}
    (hMoves : Relation.ReflTransGen (Move t) { registry := r } x) :
    x.Closed := by
  induction hMoves with
  | refl => exact ⟨h.closed, h.filled, nofun, nofun⟩
  | tail _ hMove ih => exact hMove.closed ih

/- No slot of an extraction that has ended waits to be filled. -/
theorem Extracts.settled
    {t : TypeTable}
    {id : DescriptorId}
    (hExtracts : r.Extracts t id r' slot)
    (h : r.Settled) :
    r'.Settled ∧ slot < r'.pool.size := by
  rcases hExtracts.exists_runs h.closed.bounded with
    ⟨x, hRuns, hFinds, rfl⟩
  have hClosed := h.closed_moves hRuns.moves
  have hNone : x.pending = [] := hRuns.grows.pending
  have hFilled := hClosed.filled
  rw [hNone] at hFilled
  rcases View.closed_completeAll hClosed.registry.pool hFilled
      (fun v hv => (hClosed.views v hv).2) with ⟨hPool, hAll⟩
  have hSize := View.size_completeAll x.views x.registry.pool
  refine ⟨⟨hClosed.registry.withPool hPool hSize.ge, hAll⟩, ?_⟩
  exact (hFinds.lt hClosed.registry.bounded nofun).trans_eq hSize.symm

/- Sharing a schema is one way to use a registry. -/
theorem Settled.share
    (h : r.Settled)
    (key : SyntheticKey)
    {s : Schema}
    (hKey : key.Within r.pool.size)
    (hs : s.Within r.pool.size) :
    Settled { r with pool := (r.pool.share key s).1 } ∧
    (r.pool.share key s).2 < (r.pool.share key s).1.size := by
  rcases h.closed.pool.share key hKey hs with ⟨hPool, hLt⟩
  have hLe := (r.pool.grows_share key s).size_le
  exact ⟨⟨h.closed.withPool hPool hLe, h.filled.share key s⟩, hLt⟩

/- A use gives a slot of the pool and leaves nothing unfilled. -/
theorem Use.settled
    (hUse : r.Use r' slot)
    (h : r.Settled) :
    r'.Settled ∧ slot < r'.pool.size := by
  cases hUse with
  | extract hExtracts => exact hExtracts.settled h
  | primitive kind =>
      exact h.share (.primitive kind) trivial
        (Schema.within_ofPrimitive kind kind.name _)
  | sequenceOf hElement =>
      exact h.share (.sequenceOf _) hElement
        (Schema.within_ofElement hElement)
  | unknown =>
      exact h.share .unknown trivial
        (Schema.within_unknown "<unknown>" _)

/- Slots are only added. -/
theorem Use.grows
    (hUse : r.Use r' slot)
    (h : r.Settled) :
    r.Grows r' := by
  cases hUse with
  | extract hExtracts => exact hExtracts.grows h.closed.bounded
  | primitive kind => exact r.grows_share _ _
  | sequenceOf hElement => exact r.grows_share _ _
  | unknown => exact r.grows_share _ _

theorem Later.settled
    (hLater : r.Later r')
    (h : r.Settled) :
    r'.Settled ∧ r.Grows r' := by
  induction hLater with
  | refl => exact ⟨h, .refl r⟩
  | tail _ hUse ih =>
      rcases ih with ⟨hSettled, hGrows⟩
      rcases hUse with ⟨slot, hUse⟩
      exact ⟨(hUse.settled hSettled).1, hGrows.trans (hUse.grows hSettled)⟩

/- Between extractions a registry is settled. -/
theorem BuiltWith.settled
    {t : TypeTable}
    (h : r.BuiltWith t) :
    r.Settled := by
  induction h with
  | fresh marker => exact settled_fresh marker
  | extract _ hExtracts ih => exact ((Use.extract hExtracts).settled ih).1
  | primitive _ kind ih => exact ((Use.primitive kind).settled ih).1
  | sequenceOf _ hElement ih =>
      exact ((Use.sequenceOf hElement).settled ih).1
  | unknown _ ih => exact (Use.unknown.settled ih).1

end Registry

end MatchCompiler
