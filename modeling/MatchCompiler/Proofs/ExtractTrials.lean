import MatchCompiler.Proofs.CheckedLookups

/-
  This file extracts schemas by runs that stop at the first
  fault.

  They take the steps of extraction in the same order, but a
  slot that is looked up has to be there. In a closed
  registry no look-up fails, whatever the table describes:
  the two runs end with the same result, or neither ends
  within the nesting that is allowed.

  Key definitions include:
    * `ExtractTrial`
    * `Registry.extractTrial`
    * `Trial.Agrees`
    * `Sure`

  Key theorems include:
    * `View.completeAll?_eq`
    * `Sure.nested`
    * `Registry.Settled.extractTrial_agrees`
-/

------------------------------------------------------------
-- Extraction
------------------------------------------------------------

namespace MatchCompiler

/- Steps of extraction that stop at a fault. -/
abbrev ExtractTrial :=
  ExtractT Trial

namespace SchemaPool

/- A view of the schema in a slot. -/
def view?
    (p : SchemaPool)
    (kind : ViewKind)
    (source : SchemaId)
    (name : String) : Trial Schema :=
  return (← p.look source).view kind source name

/- The labels that the discriminator in a slot can take. -/
def labelDomain?
    (p : SchemaPool)
    (discriminator : SchemaId)
    (branches : List BranchDecl) : Trial (List Member) := do
  let s ← p.look (← p.unwrap? discriminator)
  return s.labelDomain branches

end SchemaPool

namespace View

/- Rebuild a view, after the view it shows. -/
def complete?
    (views : List View) :
    Nat → View → List SchemaId × SchemaPool →
    Trial (List SchemaId × SchemaPool)
| 0, _, state => return state
| n + 1, v, (done, pool) =>
    if done.contains v.slot then
      return (done, pool)
    else do
      let (done, pool) ←
        match views.find? (fun w => w.slot == v.source) with
        | some w => complete? views n w (v.slot :: done, pool)
        | none => pure (v.slot :: done, pool)
      let s ← pool.view? v.kind v.source v.name
      return (done,
        pool.fill v.slot { s with descriptor := some v.descriptor })

/- Rebuild all views in the order in which they were noted. -/
def completeAll?
    (views : List View)
    (pool : SchemaPool) : Trial SchemaPool := do
  let (_, pool) ←
    views.foldlM (fun state v => complete? views views.length v state)
      ([], pool)
  return pool

end View

namespace ExtractTrial

open Extract (pool resolve)

/- A view of a source. -/
def view
    (kind : ViewKind)
    (slot source : SchemaId)
    (name : String)
    (descriptor : DescriptorId) : ExtractTrial Schema := do
  Extract.note { slot, source, kind, name, descriptor }
  (← pool).view? kind source name

/- The name of a template shows its arguments. -/
def instanceName
    (d : TypeDescriptor)
    (env : List SchemaId) : ExtractTrial String := do
  if d.params == 0 || env.isEmpty then
    return d.name
  else
    let pool ← pool
    let names ← (env.mapM pool.nameOf? : Trial (List String))
    let args := ", ".intercalate names
    return s!"{d.name}[{args}]"

/- What an object takes over from its base, if it has one. -/
def inherit
    (extract : DescriptorId → List SchemaId → ExtractTrial SchemaId)
    (env : List SchemaId)
    (name : String)
    (o : ObjectShape) : ExtractTrial Schema := do
  match o.base with
  | none =>
      return {
        kind := .record, name,
        flags := { extensible := o.inheritable } }
  | some base =>
      let source ← resolve extract env base
      let pool ← pool
      let id ← pool.unwrap? source
      return (← pool.look id).derived name id o.variant.isSome

/- Add a variant part, whose types are found in turn. -/
def variant
    (extract : DescriptorId → List SchemaId → ExtractTrial SchemaId)
    (env : List SchemaId)
    (origin : Origin)
    (s : Schema)
    (v : VariantPart) : ExtractTrial Schema := do
  let schema ← resolve extract env v.discriminator.type
  let domain ← (← pool).labelDomain? schema v.branches
  let added ←
    Extract.branchFields extract env (s.fields.length + 1) v.branches
  let marker := (← get).registry.marker
  return s.withVariant origin v schema domain added marker

/- An object is a union if it has a discriminator. -/
def object
    (extract : DescriptorId → List SchemaId → ExtractTrial SchemaId)
    (env : List SchemaId)
    (name : String)
    (origin : Origin)
    (o : ObjectShape) : ExtractTrial Schema := do
  let s ← inherit extract env name o
  let own ← Extract.fields extract env s.fields.length o.fields
  let s := { s with fields := s.fields ++ own }
  let s ←
    match o.variant with
    | none => pure s
    | some v => variant extract env origin s v
  return { s with
    kind := if s.discriminator.isSome then .union else .record }

/- The schema that a shape gives under a name. -/
def ofShape
    (extract : DescriptorId → List SchemaId → ExtractTrial SchemaId)
    (env : List SchemaId)
    (id : DescriptorId)
    (d : TypeDescriptor)
    (slot : SchemaId)
    (name : String) : ExtractTrial Schema :=
  match d.shape with
  | .primitive kind => pure (Schema.ofPrimitive kind name)
  | .alias target => do
      let source ← resolve extract env target
      view .alias slot source name id
  | .reference target => do
      let source ← resolve extract env target
      view .reference slot source name id
  | .container kind args => Extract.container extract env name kind args
  | .object o => object extract env name d.origin o
  | .tuple elements => do
      let fields ← Extract.tupleFields extract env 0 elements
      pure { kind := .tuple, name, fields }
  | .enumeration members =>
      pure { kind := .enumeration, name, members }
  | .generic .. | .unknown => pure (Schema.unknown name)

/- The schema of a descriptor that has been given a slot. -/
def build
    (extract : DescriptorId → List SchemaId → ExtractTrial SchemaId)
    (env : List SchemaId)
    (id : DescriptorId)
    (d : TypeDescriptor)
    (slot : SchemaId) : ExtractTrial Schema := do
  let name ← instanceName d env
  let s ← ofShape extract env id d slot name
  return { s with descriptor := some id }

/- A slot for a descriptor that has none. -/
def assign
    (extract : DescriptorId → List SchemaId → ExtractTrial SchemaId)
    (env : List SchemaId)
    (id : DescriptorId)
    (d : TypeDescriptor)
    (key : ExtractionKey) : ExtractTrial SchemaId :=
  match d.shape with
  | .generic template args => do
      let args ← args.mapM (resolve extract env)
      let slot ← extract template args
      Extract.remember key slot
      return slot
  | _ => do
      let slot ← Extract.reserve d.name
      Extract.remember key slot
      let s ← build extract env id d slot
      Extract.fill slot s
      return slot

/- The slot of a descriptor under generic arguments. -/
def step
    (table : TypeTable)
    (extract : DescriptorId → List SchemaId → ExtractTrial SchemaId)
    (id : DescriptorId)
    (env : List SchemaId) : ExtractTrial SchemaId := do
  match table.get? id with
  | none => Extract.unknown
  | some d =>
      let parametric ← Extract.isParametric table id
      let key : ExtractionKey :=
        { descriptor := id, args := if parametric then env else [] }
      match (← get).registry.cache.lookup key with
      | some slot =>
          Extract.modifyRegistry fun r => { r with hits := r.hits + 1 }
          return slot
      | none =>
          Extract.modifyRegistry fun r =>
            { r with misses := r.misses + 1 }
          assign extract env id d key

/- Extraction through at most a number of nested descriptors. -/
def nested
    (table : TypeTable) :
    Nat → DescriptorId → List SchemaId → ExtractTrial SchemaId
| 0 => fun id _ => throw (.endless id)
| n + 1 => step table (nested table n)

end ExtractTrial

/- The slot of a descriptor and the registry that holds it. -/
def Registry.extractTrial
    (r : Registry)
    (table : TypeTable)
    (depth : Nat)
    (id : DescriptorId) : Trial (Registry × SchemaId) := do
  let (slot, x) ←
    (ExtractTrial.nested table depth id []).run { registry := r }
  let pool ← View.completeAll? x.views x.registry.pool
  return ({ x.registry with pool }, slot)

end MatchCompiler

------------------------------------------------------------
-- Rebuilt Views
------------------------------------------------------------

namespace MatchCompiler

namespace SchemaPool

variable {p : SchemaPool}
variable {slot : SchemaId}

theorem view?_eq
    (hSlot : slot < p.size)
    (kind : ViewKind)
    (name : String) :
    p.view? kind slot name = pure (p.view kind slot name) := by
  simp only [view?, view, look_eq hSlot, pure_bind]

theorem Closed.labelDomain?_eq
    (h : p.Closed)
    (hSlot : slot < p.size)
    (branches : List BranchDecl) :
    p.labelDomain? slot branches = pure (p.labelDomain slot branches) := by
  simp only [labelDomain?, labelDomain, h.unwrap?_eq hSlot, pure_bind,
    look_eq (h.unwrap_lt hSlot)]

end SchemaPool

namespace View

variable {views : List View}
variable {n : Nat}

/- A pool that is closed and has a number of slots. -/
def Holds
    (n : Nat)
    (p : SchemaPool) : Prop :=
  p.size = n ∧ p.Closed

variable (hViews : ∀ v ∈ views, v.source < n)

include hViews

theorem Holds.fill
    (p : SchemaPool)
    (v : View)
    (hMem : v ∈ views)
    (h : Holds n p) :
    Holds n (p.fill v.slot (v.rebuilt p)) := by
  rcases h with ⟨rfl, hClosed⟩
  have hs : (v.rebuilt p).Within p.size :=
    (hClosed.view v.kind (hViews v hMem) v.name).withDescriptor v.descriptor
  exact ⟨SchemaPool.size_fill _ _ _, hClosed.fill v.slot hs⟩

/- A view is rebuilt without a look-up that fails. -/
theorem complete?_eq
    (fuel : Nat)
    {v : View}
    (hMem : v ∈ views)
    (done : List SchemaId)
    {p : SchemaPool}
    (h : Holds n p) :
    complete? views fuel v (done, p) =
      pure (complete views fuel v (done, p)) := by
  induction fuel generalizing v done p with
  | zero => rfl
  | succ fuel ih =>
      unfold complete? complete
      split
      · rfl
      · cases hFind : views.find? (fun w => w.slot == v.source) with
        | none =>
            have hLook := SchemaPool.view?_eq
              ((hViews v hMem).trans_eq h.1.symm) v.kind v.name
            simp only [pure_bind, hLook]
        | some w =>
            have hw := List.mem_of_find?_eq_some hFind
            have hNext := complete_keeps (Holds.fill hViews) fuel hw
              (v.slot :: done) h
            have hLook := SchemaPool.view?_eq
              ((hViews v hMem).trans_eq hNext.1.symm) v.kind v.name
            simp only [ih hw _ h, pure_bind, hLook]

theorem completeAll?_eq
    {p : SchemaPool}
    (h : Holds n p) :
    completeAll? views p = pure (completeAll views p) := by
  unfold completeAll? completeAll
  rw [Trial.foldlM_eq_foldl (P := fun state => Holds n state.2)
    (fun state hState v hMem =>
      ⟨complete?_eq hViews _ hMem state.1 hState,
        complete_keeps (Holds.fill hViews) _ hMem state.1 hState⟩) h,
    pure_bind]

end View

end MatchCompiler

------------------------------------------------------------
-- Two Runs
------------------------------------------------------------

namespace MatchCompiler

/-
  A run has the result that is given, and if none is given
  an extraction in it does not end.
-/
def Trial.Agrees
    {α : Type}
    (t : Trial α) : Option α → Prop
| some a => t = .ok a
| none => ∃ id, t = .error (.endless id)

theorem Trial.Agrees.of_some
    {α : Type}
    {t : Trial α}
    {a? : Option α}
    {a : α}
    (h : t.Agrees a?)
    (hSome : a? = some a) :
    t = .ok a := by
  subst hSome
  exact h

theorem Trial.Agrees.of_none
    {α : Type}
    {t : Trial α}
    {a? : Option α}
    (h : t.Agrees a?)
    (hNone : a? = none) :
    ∃ id, t = .error (.endless id) := by
  subst hNone
  exact h

/- Whatever slot an extraction mentions is a slot. -/
structure Extraction.InRange
    (x : Extraction) : Prop where
  registry : x.registry.Closed
  views : ∀ v ∈ x.views, v.source < x.registry.pool.size

/-
  Started with a number of slots at least, two steps agree,
  take no slot away and mention only slots; the result is as
  described for the size of the pool.
-/
def Sure
    {α : Type}
    (n : Nat)
    (m : Extract α)
    (m' : ExtractTrial α)
    (post : Nat → α → Prop) : Prop :=
  ∀ x : Extraction, x.InRange → n ≤ x.registry.pool.size →
    (m' x).Agrees (m x) ∧
    ∀ a y, m x = some (a, y) →
      y.InRange ∧ x.registry.pool.size ≤ y.registry.pool.size ∧
      post y.registry.pool.size a

namespace Sure

variable {α β : Type}
variable {n : Nat}
variable {post : Nat → α → Prop}

theorem pure
    {a : α}
    (h : ∀ k, n ≤ k → post k a) :
    Sure n (Pure.pure a) (Pure.pure a) post := by
  intro x hx hn
  refine ⟨rfl, fun b y hRun => ?_⟩
  cases hRun
  exact ⟨hx, Nat.le_refl _, h _ hn⟩

/- A step after a step; there may be more slots then. -/
theorem bind
    {m : Extract α}
    {m' : ExtractTrial α}
    {f : α → Extract β}
    {f' : α → ExtractTrial β}
    {mid : Nat → α → Prop}
    {post : Nat → β → Prop}
    (hm : Sure n m m' mid)
    (hf : ∀ a k, n ≤ k → mid k a → Sure k (f a) (f' a) post) :
    Sure n (m >>= f) (m' >>= f') post := by
  intro x hx hn
  rcases hm x hx hn with ⟨hAgrees, hKeeps⟩
  have hRun : (m >>= f) x = (m x).bind fun q => f q.1 q.2 := rfl
  have hRun' : (m' >>= f') x = (m' x >>= fun q => f' q.1 q.2) := rfl
  rw [hRun, hRun']
  cases hEnds : m x with
  | none =>
      rcases hAgrees.of_none hEnds with ⟨id, hFault⟩
      rw [hFault]
      exact ⟨⟨id, rfl⟩, nofun⟩
  | some q =>
      rcases q with ⟨a, y⟩
      rcases hKeeps a y hEnds with ⟨hy, hSize, hMid⟩
      rw [hAgrees.of_some hEnds]
      rcases hf a _ (hn.trans hSize) hMid y hy (Nat.le_refl _) with
        ⟨hAgrees', hKeeps'⟩
      refine ⟨hAgrees', fun b z hNext => ?_⟩
      rcases hKeeps' b z hNext with ⟨hz, hSize', hPost⟩
      exact ⟨hz, hSize.trans hSize', hPost⟩

/- A step that cannot fail does the same in both. -/
theorem of_step
    {m : Extract α}
    {m' : ExtractTrial α}
    {f : Extraction → α × Extraction}
    (hRun : ∀ x, m x = some (f x))
    (hRun' : ∀ x, m' x = .ok (f x))
    (h :
      ∀ x : Extraction, x.InRange → n ≤ x.registry.pool.size →
        (f x).2.InRange ∧
        x.registry.pool.size ≤ (f x).2.registry.pool.size ∧
        post (f x).2.registry.pool.size (f x).1) :
    Sure n m m' post := by
  intro x hx hn
  refine ⟨?_, fun a y hEnds => ?_⟩
  · rw [hRun, hRun']
    exact rfl
  · rw [hRun] at hEnds
    have hKept := h x hx hn
    rw [Option.some.inj hEnds] at hKept
    exact hKept

theorem current :
    Sure n get get fun k (x : Extraction) =>
      x.InRange ∧ x.registry.pool.size = k :=
  of_step (f := fun x => (x, x)) (fun _ => rfl) (fun _ => rfl)
    fun _ hx _ => ⟨hx, Nat.le_refl _, hx, rfl⟩

theorem pool :
    Sure n Extract.pool Extract.pool fun k p =>
      p.Closed ∧ p.size = k :=
  of_step (f := fun x => (x.registry.pool, x)) (fun _ => rfl)
    (fun _ => rfl)
    fun _ hx _ => ⟨hx, Nat.le_refl _, hx.registry.pool, rfl⟩

/- Something is looked up in the pool. -/
theorem lookup
    {t : Trial β}
    {b : β}
    (ht : t = Pure.pure b)
    {m : Extract α}
    {f : β → ExtractTrial α}
    (h : Sure n m (f b) post) :
    Sure n m (liftM t >>= f) post := by
  subst ht
  exact h

/- The registry changes in what mentions no slot. -/
theorem modifyRegistry
    {f : Registry → Registry}
    (hPool : ∀ r, (f r).pool = r.pool)
    (hCache : ∀ r, (f r).cache = r.cache) :
    Sure n (Extract.modifyRegistry f) (Extract.modifyRegistry f)
      fun _ _ => True := by
  refine of_step
    (f := fun x => ((), { x with registry := f x.registry }))
    (fun _ => rfl) (fun _ => rfl) fun x hx _ => ?_
  refine ⟨⟨⟨?_, ?_⟩, ?_⟩, (congrArg _ (hPool _)).ge, trivial⟩
  · exact hPool x.registry ▸ hx.registry.pool
  · dsimp only
    rw [hPool, hCache]
    exact hx.registry.cache
  · dsimp only
    rw [hPool]
    exact hx.views

theorem isParametric
    (t : TypeTable)
    (id : DescriptorId) :
    Sure n (Extract.isParametric t id) (Extract.isParametric t id)
      fun _ _ => True := by
  refine current.bind fun x k _ _ => ?_
  cases x.registry.parametric.lookup id with
  | some known => exact pure fun _ _ => trivial
  | none =>
      refine (modifyRegistry
        (f := fun r =>
          { r with parametric := (id, t.mentionsParams id) :: r.parametric })
        (fun _ => rfl) fun _ => rfl).bind fun _ _ _ _ => ?_
      exact pure fun _ _ => trivial

/- The pool changes to one that is closed and no smaller. -/
theorem withPool
    {x : Extraction}
    (hx : x.InRange)
    {p : SchemaPool}
    (hPool : p.Closed)
    (hLe : x.registry.pool.size ≤ p.size) :
    Extraction.InRange
      { x with registry := { x.registry with pool := p } } :=
  ⟨hx.registry.withPool hPool hLe,
    fun v hv => (hx.views v hv).trans_le hLe⟩

theorem unknown :
    Sure n Extract.unknown Extract.unknown fun k slot => slot < k := by
  refine of_step
    (f := fun x =>
      (x.registry.pool.unknown.2,
        { x with
          registry :=
            { x.registry with pool := x.registry.pool.unknown.1 } }))
    (fun _ => rfl) (fun _ => rfl) fun x hx _ => ?_
  have hShared := hx.registry.pool.share .unknown trivial
    (Schema.within_unknown "<unknown>" _)
  have hLe := (x.registry.pool.grows_share .unknown
    (Schema.unknown "<unknown>")).size_le
  exact ⟨withPool hx hShared.1 hLe, hLe, hShared.2⟩

/- A slot is appended, and filled later. -/
theorem reserve (name : String) :
    Sure n (Extract.reserve name) (Extract.reserve name)
      fun k slot => slot < k := by
  refine of_step
    (f := fun x =>
      (x.registry.pool.size,
        { x with
          registry :=
            { x.registry with
              pool := (x.registry.pool.push (Schema.unknown name)).1 }
          pending := x.registry.pool.size :: x.pending }))
    (fun _ => rfl) (fun _ => rfl) fun x hx _ => ?_
  have hSize := x.registry.pool.size_push (Schema.unknown name)
  have hPool := hx.registry.pool.push (Schema.within_unknown name _)
  have hLe : x.registry.pool.size ≤
      (x.registry.pool.push (Schema.unknown name)).1.size := by
    omega
  have hKept := withPool hx hPool hLe
  refine ⟨⟨hKept.registry, hKept.views⟩, hLe, ?_⟩
  exact Nat.lt_of_lt_of_eq (Nat.lt_succ_self _) hSize.symm

/- A key is remembered with its slot. -/
theorem remember
    {key : ExtractionKey}
    {slot : SchemaId}
    (hSlot : slot < n)
    (hArgs : ∀ arg ∈ key.args, arg < n) :
    Sure n (Extract.remember key slot) (Extract.remember key slot)
      fun _ _ => True := by
  refine of_step
    (f := fun x =>
      ((), { x with
        registry :=
          { x.registry with cache := (key, slot) :: x.registry.cache } }))
    (fun _ => rfl) (fun _ => rfl) fun x hx hn => ?_
  have hRegistry := hx.registry.remember (hSlot.trans_le hn)
    fun arg hArg => (hArgs arg hArg).trans_le hn
  exact ⟨⟨hRegistry, hx.views⟩, Nat.le_refl _, trivial⟩

theorem fill
    (slot : SchemaId)
    {s : Schema}
    (hs : s.Within n) :
    Sure n (Extract.fill slot s) (Extract.fill slot s)
      fun _ _ => True := by
  refine of_step
    (f := fun x =>
      ((), { x with
        registry :=
          { x.registry with pool := x.registry.pool.fill slot s }
        pending := x.pending.erase slot }))
    (fun _ => rfl) (fun _ => rfl) fun x hx hn => ?_
  have hSize := x.registry.pool.size_fill slot s
  have hKept := withPool hx (hx.registry.pool.fill slot (hs.mono hn))
    hSize.ge
  exact ⟨⟨hKept.registry, hKept.views⟩, hSize.ge, trivial⟩

/- A view whose source is a slot is noted, or not. -/
theorem note
    {v : View}
    (hSource : v.source < n) :
    Sure n (Extract.note v) (Extract.note v) fun _ _ => True := by
  refine of_step (f := fun x => ((), _)) (Extract.note_eq v)
    (Extract.note_eq v) fun x hx hn => ?_
  refine ⟨⟨hx.registry, List.forall_mem_append.mpr ⟨hx.views, ?_⟩⟩,
    Nat.le_refl _, trivial⟩
  split
  · exact List.forall_mem_singleton.mpr (hSource.trans_le hn)
  · exact nofun

/- A view mentions what its source mentions. -/
theorem view
    (kind : ViewKind)
    (slot : SchemaId)
    {source : SchemaId}
    (hSource : source < n)
    (name : String)
    (id : DescriptorId) :
    Sure n (Extract.view kind slot source name id)
      (ExtractTrial.view kind slot source name id)
      fun k s => s.Within k := by
  refine (note hSource).bind fun _ k hLe _ => ?_
  refine pool.bind fun p k' hLe' hp => ?_
  rcases hp with ⟨hClosed, rfl⟩
  have hLt := hSource.trans_le (hLe.trans hLe')
  rw [← bind_pure (liftM _), SchemaPool.view?_eq hLt]
  exact pure fun _ hLe => (hClosed.view kind hLt name).mono hLe

end Sure

end MatchCompiler

------------------------------------------------------------
-- Types And Fields
------------------------------------------------------------

namespace MatchCompiler

namespace Sure

variable {n : Nat}
variable {extract : DescriptorId → List SchemaId → Extract SchemaId}
variable {extract' :
  DescriptorId → List SchemaId → ExtractTrial SchemaId}
variable {env : List SchemaId}

/- The slots of descriptors are found in both runs. -/
def Supplies
    (extract : DescriptorId → List SchemaId → Extract SchemaId)
    (extract' : DescriptorId → List SchemaId → ExtractTrial SchemaId) :
    Prop :=
  ∀ (n : Nat) (id : DescriptorId) (env : List SchemaId),
    (∀ s ∈ env, s < n) →
    Sure n (extract id env) (extract' id env) fun k slot => slot < k

variable (h : Supplies extract extract')
variable (hEnv : ∀ s ∈ env, s < n)

include h hEnv

theorem resolve (ref : TypeRef) :
    Sure n (Extract.resolve extract env ref)
      (Extract.resolve extract' env ref) fun k slot => slot < k := by
  cases ref with
  | described id => exact h n id env hEnv
  | parameter i =>
      unfold Extract.resolve
      dsimp only
      cases hArg : env[i]? with
      | none => exact unknown
      | some arg =>
          have hLt := hEnv arg (List.mem_of_getElem? hArg)
          exact pure fun _ hLe => hLt.trans_le hLe

theorem resolveAll (refs : List TypeRef) :
    Sure n (refs.mapM (Extract.resolve extract env))
      (refs.mapM (Extract.resolve extract' env)) fun k slots =>
        ∀ slot ∈ slots, slot < k := by
  induction refs generalizing n with
  | nil => exact pure fun _ _ => nofun
  | cons ref refs ih =>
      simp only [List.mapM_cons]
      refine (resolve h hEnv ref).bind fun slot k hLe hSlot => ?_
      refine (ih fun s hs => (hEnv s hs).trans_le hLe).bind
        fun slots k' hLe' hSlots => ?_
      exact pure fun k'' hLe'' => List.forall_mem_cons.mpr
        ⟨hSlot.trans_le (hLe'.trans hLe''),
          fun s hs => (hSlots s hs).trans_le hLe''⟩

theorem fields
    (position : Nat)
    (ds : List FieldDecl) :
    Sure n (Extract.fields extract env position ds)
      (Extract.fields extract' env position ds) fun k fs =>
        ∀ f ∈ fs, f.schema < k := by
  induction ds generalizing n position with
  | nil => exact pure fun _ _ => nofun
  | cons d ds ih =>
      refine (resolve h hEnv d.type).bind fun slot k hLe hSlot => ?_
      refine (ih (fun s hs => (hEnv s hs).trans_le hLe) _).bind
        fun fs k' hLe' hFields => ?_
      exact pure fun k'' hLe'' => List.forall_mem_cons.mpr
        ⟨hSlot.trans_le (hLe'.trans hLe''),
          fun f hf => (hFields f hf).trans_le hLe''⟩

theorem tupleFields
    (position : Nat)
    (es : List TupleElement) :
    Sure n (Extract.tupleFields extract env position es)
      (Extract.tupleFields extract' env position es) fun k fs =>
        ∀ f ∈ fs, f.schema < k := by
  induction es generalizing n position with
  | nil => exact pure fun _ _ => nofun
  | cons e es ih =>
      refine (resolve h hEnv e.type).bind fun slot k hLe hSlot => ?_
      refine (ih (fun s hs => (hEnv s hs).trans_le hLe) _).bind
        fun fs k' hLe' hFields => ?_
      exact pure fun k'' hLe'' => List.forall_mem_cons.mpr
        ⟨hSlot.trans_le (hLe'.trans hLe''),
          fun f hf => (hFields f hf).trans_le hLe''⟩

theorem branchFields
    (position : Nat)
    (bs : List BranchDecl) :
    Sure n (Extract.branchFields extract env position bs)
      (Extract.branchFields extract' env position bs) fun k added =>
        ∀ a ∈ added, ∀ f ∈ a.2, f.schema < k := by
  induction bs generalizing n with
  | nil => exact pure fun _ _ => nofun
  | cons b bs ih =>
      refine (fields h hEnv position b.fields).bind
        fun own k hLe hOwn => ?_
      refine (ih fun s hs => (hEnv s hs).trans_le hLe).bind
        fun added k' hLe' hAdded => ?_
      exact pure fun k'' hLe'' => List.forall_mem_cons.mpr
        ⟨fun f hf => (hOwn f hf).trans_le (hLe'.trans hLe''),
          fun a ha f hf => (hAdded a ha f hf).trans_le hLe''⟩

end Sure

end MatchCompiler

------------------------------------------------------------
-- Building Schemas
------------------------------------------------------------

namespace MatchCompiler

namespace Sure

variable {n : Nat}
variable {extract : DescriptorId → List SchemaId → Extract SchemaId}
variable {extract' :
  DescriptorId → List SchemaId → ExtractTrial SchemaId}
variable {env : List SchemaId}

/- The names of arguments are looked up. -/
theorem instanceName
    (d : TypeDescriptor)
    (hEnv : ∀ s ∈ env, s < n) :
    Sure n (Extract.instanceName d env) (ExtractTrial.instanceName d env)
      fun _ _ => True := by
  unfold Extract.instanceName ExtractTrial.instanceName
  split
  · exact pure fun _ _ => trivial
  · refine pool.bind fun p k hLe hp => ?_
    rcases hp with ⟨-, rfl⟩
    refine lookup (Trial.mapM_eq_map fun s hs =>
      SchemaPool.nameOf?_eq ((hEnv s hs).trans_le hLe)) ?_
    exact pure fun _ _ => trivial

variable (h : Supplies extract extract')
variable (hEnv : ∀ s ∈ env, s < n)

include h hEnv

theorem container
    (name : String)
    (kind : Container)
    (args : List TypeRef) :
    Sure n (Extract.container extract env name kind args)
      (Extract.container extract' env name kind args)
      fun k s => s.Within k := by
  by_cases hArity : args.length = kind.arity
  · rw [Follows.container_eq env name extract hArity,
      Follows.container_eq env name extract' hArity]
    refine (resolveAll h hEnv args).bind fun slots k _ hSlots => ?_
    exact pure fun k' hLe => kind.within_schema name
      fun slot hs => (hSlots slot hs).trans_le hLe
  · rw [Follows.container_of_misfit env name extract hArity,
      Follows.container_of_misfit env name extract' hArity]
    exact pure fun k _ => Schema.within_unknown name k

theorem inherit
    (name : String)
    (o : ObjectShape) :
    Sure n (Extract.inherit extract env name o)
      (ExtractTrial.inherit extract' env name o)
      fun k s => s.Within k := by
  unfold Extract.inherit ExtractTrial.inherit
  cases o.base with
  | none => exact pure fun _ _ => Schema.within_ofFields nofun
  | some base =>
      refine (resolve h hEnv base).bind fun source k _ hSource => ?_
      refine pool.bind fun p k' hLe hp => ?_
      rcases hp with ⟨hClosed, rfl⟩
      have hLt := hSource.trans_le hLe
      have hBase := hClosed.unwrap_lt hLt
      refine lookup (hClosed.unwrap?_eq hLt) ?_
      refine lookup (SchemaPool.look_eq hBase) ?_
      exact pure fun _ hLe =>
        ((hClosed.slots _).derived hBase name _).mono hLe

theorem variant
    (origin : Origin)
    {s : Schema}
    (hs : s.Within n)
    (v : VariantPart) :
    Sure n (Extract.variant extract env origin s v)
      (ExtractTrial.variant extract' env origin s v)
      fun k s => s.Within k := by
  refine (resolve h hEnv v.discriminator.type).bind
    fun slot k hLe hSlot => ?_
  refine pool.bind fun p k' hLe' hp => ?_
  rcases hp with ⟨hClosed, rfl⟩
  refine lookup (hClosed.labelDomain?_eq (hSlot.trans_le hLe') _) ?_
  have hEnv' : ∀ a ∈ env, a < p.size :=
    fun a ha => (hEnv a ha).trans_le (hLe.trans hLe')
  refine (branchFields h hEnv' _ v.branches).bind
    fun added k₂ hLe₂ hAdded => ?_
  refine current.bind fun x k₃ hLe₃ _ => ?_
  refine pure fun k₄ hLe₄ => ?_
  have hLeAll := hLe'.trans (hLe₂.trans (hLe₃.trans hLe₄))
  exact (hs.mono (hLe.trans hLeAll)).withVariant (hSlot.trans_le hLeAll)
    (fun a ha f hf => (hAdded a ha f hf).trans_le (hLe₃.trans hLe₄))
    origin v _ _

theorem object
    (name : String)
    (origin : Origin)
    (o : ObjectShape) :
    Sure n (Extract.object extract env name origin o)
      (ExtractTrial.object extract' env name origin o)
      fun k s => s.Within k := by
  refine (inherit h hEnv name o).bind fun s k hLe hs => ?_
  have hEnv' : ∀ a ∈ env, a < k := fun a ha => (hEnv a ha).trans_le hLe
  refine (fields h hEnv' _ o.fields).bind fun own k' hLe' hOwn => ?_
  have hBoth := (hs.mono hLe').withFields hOwn
  dsimp only
  cases o.variant with
  | none => exact pure fun _ hLe'' => (hBoth.mono hLe'').withKind _
  | some v =>
      have hEnv'' : ∀ a ∈ env, a < k' :=
        fun a ha => (hEnv' a ha).trans_le hLe'
      refine (variant h hEnv'' origin hBoth v).bind
        fun s' k₂ _ hs' => ?_
      exact pure fun _ hLe₂ => (hs'.mono hLe₂).withKind _

theorem ofShape
    (id : DescriptorId)
    (d : TypeDescriptor)
    (slot : SchemaId)
    (name : String) :
    Sure n (Extract.ofShape extract env id d slot name)
      (ExtractTrial.ofShape extract' env id d slot name)
      fun k s => s.Within k := by
  unfold Extract.ofShape ExtractTrial.ofShape
  cases d.shape with
  | primitive kind =>
      exact pure fun k _ => Schema.within_ofPrimitive kind name k
  | «alias» target =>
      exact (resolve h hEnv target).bind fun _ _ _ hSource =>
        view .alias slot hSource name id
  | reference target =>
      exact (resolve h hEnv target).bind fun _ _ _ hSource =>
        view .reference slot hSource name id
  | container kind args => exact container h hEnv name kind args
  | object o => exact object h hEnv name d.origin o
  | tuple elements =>
      refine (tupleFields h hEnv 0 elements).bind fun fs k _ hFields => ?_
      exact pure fun _ hLe => Schema.within_ofFields
        fun f hf => (hFields f hf).trans_le hLe
  | enumeration members =>
      exact pure fun _ _ =>
        ⟨nofun, nofun, nofun, nofun, nofun, nofun, nofun, nofun⟩
  | generic template args =>
      exact pure fun k _ => Schema.within_unknown name k
  | unknown => exact pure fun k _ => Schema.within_unknown name k

theorem build
    (id : DescriptorId)
    (d : TypeDescriptor)
    (slot : SchemaId) :
    Sure n (Extract.build extract env id d slot)
      (ExtractTrial.build extract' env id d slot)
      fun k s => s.Within k := by
  refine (instanceName d hEnv).bind fun name k hLe _ => ?_
  refine (ofShape h (fun s hs => (hEnv s hs).trans_le hLe) id d slot
    name).bind fun s k' _ hs => ?_
  exact pure fun _ hLe' => (hs.mono hLe').withDescriptor id

end Sure

end MatchCompiler

------------------------------------------------------------
-- Whole Extractions
------------------------------------------------------------

namespace MatchCompiler

namespace Sure

variable {n : Nat}
variable {extract : DescriptorId → List SchemaId → Extract SchemaId}
variable {extract' :
  DescriptorId → List SchemaId → ExtractTrial SchemaId}
variable {env : List SchemaId}

/- A slot is reserved and filled, or that of an instance found. -/
theorem assign
    (h : Supplies extract extract')
    (hEnv : ∀ s ∈ env, s < n)
    (id : DescriptorId)
    (d : TypeDescriptor)
    {key : ExtractionKey}
    (hKey : ∀ arg ∈ key.args, arg < n) :
    Sure n (Extract.assign extract env id d key)
      (ExtractTrial.assign extract' env id d key)
      fun k slot => slot < k := by
  have hOwn :
      Sure n
        (do
          let slot ← Extract.reserve d.name
          Extract.remember key slot
          let s ← Extract.build extract env id d slot
          Extract.fill slot s
          return slot)
        (do
          let slot ← Extract.reserve d.name
          Extract.remember key slot
          let s ← ExtractTrial.build extract' env id d slot
          Extract.fill slot s
          return slot)
        fun k slot => slot < k := by
    refine (reserve d.name).bind fun slot k hLe hSlot => ?_
    refine (remember hSlot fun a ha => (hKey a ha).trans_le hLe).bind
      fun _ k₁ hLe₁ _ => ?_
    have hEnv' : ∀ a ∈ env, a < k₁ :=
      fun a ha => (hEnv a ha).trans_le (hLe.trans hLe₁)
    refine (build h hEnv' id d slot).bind fun s k₂ hLe₂ hs => ?_
    refine (fill slot hs).bind fun _ k₃ hLe₃ _ => ?_
    exact pure fun _ hLe₄ =>
      hSlot.trans_le (hLe₁.trans (hLe₂.trans (hLe₃.trans hLe₄)))
  unfold Extract.assign ExtractTrial.assign
  cases d.shape
  case generic template args =>
    refine (resolveAll h hEnv args).bind fun slots k hLe hSlots => ?_
    refine (h k template slots hSlots).bind fun slot k' hLe' hSlot => ?_
    have hKey' : ∀ a ∈ key.args, a < k' :=
      fun a ha => (hKey a ha).trans_le (hLe.trans hLe')
    refine (remember hSlot hKey').bind fun _ k₂ hLe₂ _ => ?_
    exact pure fun _ hLe₃ => hSlot.trans_le (hLe₂.trans hLe₃)
  all_goals exact hOwn

/- The slot of a descriptor is remembered, or assigned. -/
theorem step
    (h : Supplies extract extract')
    (t : TypeTable) :
    Supplies (Extract.step t extract) (ExtractTrial.step t extract') := by
  intro n id env hEnv
  unfold Extract.step ExtractTrial.step
  cases t.get? id with
  | none => exact unknown
  | some d =>
      refine (isParametric t id).bind fun parametric k hLe _ => ?_
      refine current.bind fun x k' hLe' hx => ?_
      rcases hx with ⟨hx, rfl⟩
      have hEnv' : ∀ s ∈ env, s < x.registry.pool.size :=
        fun s hs => (hEnv s hs).trans_le (hLe.trans hLe')
      have hKey :
          ∀ arg ∈ (if parametric then env else []),
            arg < x.registry.pool.size := by
        cases parametric with
        | true => exact hEnv'
        | false => exact nofun
      cases hCache : x.registry.cache.lookup
          { descriptor := id, args := if parametric then env else [] } with
      | some slot =>
          have hSlot := hx.registry.bounded.cache _ slot hCache
          refine (modifyRegistry
            (f := fun r => { r with hits := r.hits + 1 })
            (fun _ => rfl) fun _ => rfl).bind fun _ k₁ hLe₁ _ => ?_
          exact pure fun _ hLe₂ => hSlot.trans_le (hLe₁.trans hLe₂)
      | none =>
          refine (modifyRegistry
            (f := fun r => { r with misses := r.misses + 1 })
            (fun _ => rfl) fun _ => rfl).bind fun _ k₁ hLe₁ _ => ?_
          exact assign h (fun s hs => (hEnv' s hs).trans_le hLe₁) id d
            fun a ha => (hKey a ha).trans_le hLe₁

/- Extraction is the same in both runs at any depth. -/
theorem nested
    (t : TypeTable)
    (depth : Nat) :
    Supplies (Extract.nested t depth) (ExtractTrial.nested t depth) := by
  induction depth with
  | zero => exact fun n id env _ x _ _ => ⟨⟨id, rfl⟩, nofun⟩
  | succ depth ih => exact step ih t

end Sure

/-
  In a settled registry a descriptor is extracted without a
  look-up that fails.
-/
theorem Registry.Settled.extractTrial_agrees
    {r : Registry}
    (h : r.Settled)
    (t : TypeTable)
    (depth : Nat)
    (id : DescriptorId) :
    (r.extractTrial t depth id).Agrees (r.extract? t depth id) := by
  have hStart : Extraction.InRange { registry := r } := ⟨h.closed, nofun⟩
  rcases Sure.nested t depth 0 id [] nofun { registry := r } hStart
      (Nat.zero_le _) with ⟨hAgrees, hKeeps⟩
  unfold extractTrial extract?
  cases hEnds : Extract.nested t depth id [] { registry := r } with
  | none =>
      rcases hAgrees.of_none hEnds with ⟨inner, hFault⟩
      exact ⟨inner, by rw [StateT.run, hFault]; rfl⟩
  | some q =>
      rcases q with ⟨slot, x⟩
      have hx := (hKeeps slot x hEnds).1
      have hAll := View.completeAll?_eq hx.views ⟨rfl, hx.registry.pool⟩
      rw [StateT.run, hAgrees.of_some hEnds]
      exact congrArg
        (fun t : Trial SchemaPool => do
          let pool ← t
          return ({ x.registry with pool }, slot)) hAll

end MatchCompiler
