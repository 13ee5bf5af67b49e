import MatchCompiler.Proofs.Comparability
import MatchCompiler.Proofs.DescribedViews
import MatchCompiler.Proofs.PairedPatterns
import MatchCompiler.Proofs.PointeeKinds

/-
  This file compares patterns that name a type with patterns
  that name an alias of it or a reference to it.

  Types are compared by what they unwrap to, and an alias or
  a reference shows the parts of what it comes to. So it does
  not matter for a check which of them is named. It matters
  for the test at run time, which asks for the name of the
  type that the pattern names: an alias has the name of what
  it stands for, but a reference has a name of its own.

  Key definitions include:
    * `Pairing.same`
    * `Pattern.Retargets`
    * `Registry.ReadsAlike`

  Key theorems include:
    * `CheckedArm.clause_eq_of_bare`
    * `Registry.ReadsAlike.sameOutcome`
    * `Registry.checkArm_of_target_behind_views`
-/

------------------------------------------------------------
-- Lowering Without Slots
------------------------------------------------------------

namespace MatchCompiler

namespace Checked

variable {o : LoweringOptions}

/- Lowering the parts of a pattern does not see their slots. -/
theorem lowerAll_bare
    {qs : List Checked}
    (h : ∀ q ∈ qs, q.bare.lower o = q.lower o) :
    lowerAll o (bareAll qs) = lowerAll o qs := by
  funext access
  induction qs with
  | nil => rfl
  | cons q qs ih =>
      rcases List.forall_mem_cons.mp h with ⟨hHead, hTail⟩
      simp only [bareAll, lowerAll, hHead, ih hTail]

theorem lowerFields_bare
    {fs : List (FieldRead × Checked)}
    (h : ∀ f ∈ fs, f.2.bare.lower o = f.2.lower o) :
    lowerFields o (bareFields fs) = lowerFields o fs := by
  funext inside access
  induction fs with
  | nil => rfl
  | cons f fs ih =>
      rcases List.forall_mem_cons.mp h with ⟨hHead, hTail⟩
      simp only [bareFields, lowerFields, hHead, ih hTail]

theorem lowerTuple_bare
    {items : List (Nat × Checked)}
    (h : ∀ i ∈ items, i.2.bare.lower o = i.2.lower o) :
    lowerTuple o (bareItems items) = lowerTuple o items := by
  funext inside access
  induction items with
  | nil => rfl
  | cons i items ih =>
      rcases List.forall_mem_cons.mp h with ⟨hHead, hTail⟩
      simp only [bareItems, lowerTuple, hHead, ih hTail]

theorem lowerSlots_bare
    {qs : List Checked}
    (h : ∀ q ∈ qs, q.bare.lower o = q.lower o) :
    lowerSlots o (bareAll qs) = lowerSlots o qs := by
  funext inside slots
  induction qs generalizing slots with
  | nil => rfl
  | cons q qs ih =>
      rcases List.forall_mem_cons.mp h with ⟨hHead, hTail⟩
      cases slots with
      | nil => rfl
      | cons a slots => simp only [bareAll, lowerSlots, hHead, ih hTail]

theorem lowerEntries_bare
    {es : List (Literal × Checked)}
    (h : ∀ e ∈ es, e.2.bare.lower o = e.2.lower o) :
    lowerEntries o (bareEntries es) = lowerEntries o es := by
  funext inside access
  induction es with
  | nil => rfl
  | cons e es ih =>
      rcases List.forall_mem_cons.mp h with ⟨hHead, hTail⟩
      simp only [bareEntries, lowerEntries, hHead, ih hTail]

/- Lowering a pattern does not see the slots that it mentions. -/
theorem lower_bare (q : Checked) :
    q.bare.lower o = q.lower o := by
  induction q using partInduction with
  | wildcard s => rfl
  | literal s l => rfl
  | set s p => rfl
  | typeIs s id name => rfl
  | bind s x p ih =>
      funext inside access
      simp only [bare, lower, ih]
  | guarded s p id ih =>
      funext inside access
      simp only [bare, lower, ih]
  | some s p ih =>
      funext inside access
      simp only [bare, lower, ih]
  | alt s ps ih =>
      funext inside access
      simp only [bare, lower, lowerAll_bare ih]
  | object s h fs ih =>
      funext inside access
      simp only [bare, lower, lowerFields_bare ih]
      rfl
  | tuple s items ih =>
      funext inside access
      simp only [bare, lower, lowerTuple_bare ih]
  | seq s l n items spread ihItems ihSpread =>
      funext inside access
      cases spread with
      | none => simp only [bare, lower, lowerSlots_bare ihItems]
      | some q =>
          simp only [bare, lower, lowerSlots_bare ihItems]
          split
          · rfl
          · rename_i length slots slice hAccesses
            cases slice with
            | none => rfl
            | some a => simp only [ihSpread q rfl]
  | map s es ih =>
      funext inside access
      simp only [bare, lower, lowerEntries_bare ih]

end Checked

/- Arms that differ in slots at most have the same clauses. -/
theorem CheckedArm.clause_eq_of_bare
    {a a' : CheckedArm}
    (h : a'.pattern.bare = a.pattern.bare)
    (o : LoweringOptions)
    (arm : Nat) :
    a'.clause o arm = a.clause o arm := by
  have hLower : a'.pattern.lower o = a.pattern.lower o := by
    rw [← Checked.lower_bare, h, Checked.lower_bare]
  unfold clause
  rw [hLower]

end MatchCompiler

------------------------------------------------------------
-- Slots That Read Alike
------------------------------------------------------------

namespace MatchCompiler

/- Two schemas that show one object look alike. -/
theorem Schema.ReadsAs.looksLike
    {s s' u : Schema}
    (h : s.ReadsAs u)
    (h' : s'.ReadsAs u)
    (hObject : u.kind.IsObject)
    (hUnion : u.TellsUnion) :
    s.LooksLike s' := by
  have hPlain : u.kind ≠ .reference := by
    rcases hObject with hKind | hKind <;> rw [hKind] <;> nofun
  have hKind : s.structuralKind = u.kind :=
    (h.structuralKind_eq_iff hPlain hUnion).mpr fun _ => hObject
  have hKind' : s'.structuralKind = u.kind :=
    (h'.structuralKind_eq_iff hPlain hUnion).mpr fun _ => hObject
  refine ⟨hKind'.trans hKind.symm, h'.fields.trans h.fields.symm,
    h'.branches.trans h.branches.symm,
    h'.discriminator.trans h.discriminator.symm, fun hIs => ?_⟩
  have hDisc := (hUnion hPlain).mpr (hKind.symm.trans hIs)
  rcases Option.isSome_iff_exists.mp hDisc with ⟨d, hd⟩
  unfold discriminatorName
  rw [h.discriminator, h'.discriminator, hd]
  rfl

namespace SchemaPool

variable {p : SchemaPool}
variable {a b : SchemaId}

/- Slots on a chain of views unwrap to the same. -/
theorem AllSettled.unwrap_eq_of_path
    (hSettled : p.AllSettled)
    (hAcyclic : p.Acyclic)
    (hPath : Relation.ReflTransGen p.Links a b) :
    p.unwrap a = p.unwrap b := by
  induction hPath using Relation.ReflTransGen.head_induction_on with
  | refl => rfl
  | @head a c hLinks _ ih =>
      rcases hSettled.comesTo_unwrap hAcyclic c with ⟨n, hChain⟩
      have hComes : p.ComesTo a (p.unwrap c) := ⟨n + 1, .step hLinks hChain⟩
      exact hComes.unwrap_eq.trans ih

end SchemaPool

/-
  Two descriptors have been extracted, and their slots come to
  one object.
-/
structure Registry.ReadsAlike
    (t : TypeTable)
    (r : Registry)
    (named target : DescriptorId)
    (a b : SchemaId) : Prop where
  settled : r.Settled
  first : r.Remembers named a
  second : r.Remembers target b
  isSome_first : (t.get? named).isSome = true
  isSome_second : (t.get? target).isSome = true
  unwrap : r.pool.unwrap a = r.pool.unwrap b
  looksLike : (r.get a).LooksLike (r.get b)

end MatchCompiler

------------------------------------------------------------
-- Patterns With Another Target
------------------------------------------------------------

namespace MatchCompiler

/- All slots below a bound, each its own twin. -/
def Twins.equal (n : Nat) : Twins where
  Rel := Eq
  old := n
  own := fun _ _ => rfl

/- A registry in use looks like itself. -/
theorem Registry.Use.exists_equal
    {r r' : Registry}
    {slot : SchemaId}
    (h : r.Use r' slot)
    (hSettled : r.Settled) :
    ∃ T : Twins, (Twins.equal r.pool.size).Grows T ∧
      (r' = r' ∧ r'.Settled ∧ T = .equal r'.pool.size) ∧
      T.Rel slot slot :=
  ⟨.equal r'.pool.size,
    ⟨fun _ _ hEq => hEq, (h.grows hSettled).pool.size_le⟩,
    ⟨rfl, (h.settled hSettled).1, rfl⟩, rfl⟩

/- Runs from the same registry. -/
def Pairing.same (ctx : CheckContext) : Pairing ctx where
  Holds T r r' := r' = r ∧ r.Settled ∧ T = .equal r.pool.size
  Known := fun _ => True
  pools := by
    rintro T _ r ⟨rfl, hSettled, rfl⟩
    refine ⟨?_, ?_, ?_, ?_, ?_⟩
    · rintro a _ rfl
      rfl
    · exact fun a _ _ => hSettled.closed.pool.slots a
    · rintro a _ rfl
      rfl
    · rintro a _ rfl
      rfl
    · rintro a _ c _ rfl rfl
      rfl
  schemaOf := by
    rintro T _ r id ⟨rfl, hSettled, rfl⟩ _
    exact (r.use_schemaWithin ctx.table ctx.depth id).exists_equal hSettled
  sequenceOf := by
    rintro T _ r element ⟨rfl, hSettled, rfl⟩ hElement
    exact (Registry.Use.sequenceOf hElement).exists_equal hSettled

/-
  A type test, a narrowing or a constructor, and the same with
  another target.
-/
inductive Pattern.Retargets
    (named target : DescriptorId) : Pattern → Pattern → Prop
| typeTest
    (span : Span) :
    Retargets named target (.typeTest span named) (.typeTest span target)
| narrow
    (span : Span)
    (x : String) :
    Retargets named target (.narrow span x named) (.narrow span x target)
| constructor
    (span : Span)
    (h : ConstructorHead)
    (fields : List (FieldName × Pattern))
    (args : List Pattern) :
    Retargets named target
      (.constructor span { h with target := some named } fields args)
      (.constructor span { h with target := some target } fields args)

/- A type test once the types have been compared. -/
def Check.testVerdict
    (span : Span)
    (id slot : SchemaId) : Compat → Check (Checked × SchemaId)
| .exact | .numeric => return (.wildcard span, slot)
| .deferred => return (.typeIs span slot (← schema slot).name, slot)
| .incompatible => do
    let problem :=
      Problem.hopelessTest span (← typeName id) (← typeName slot)
    return (← reject span problem, slot)

/- The head of a constructor once the types have been compared. -/
def Check.headVerdict
    (span : Span)
    (id : SchemaId)
    (name : String)
    (own : ResolvedHead)
    (target : SchemaId) : Compat → Check (Except Problem ResolvedHead)
| .exact => return .ok { own with target }
| .deferred => do
    let runtimeType := some (← schema target).name
    return .ok { own with target, runtimeType }
| _ => return .error (.unrelatedType span name (← typeName id))

namespace Registry.ReadsAlike

variable {ctx : CheckContext}
variable {r : Registry}
variable {named target : DescriptorId}
variable {a b : SchemaId}
variable (h : ReadsAlike ctx.table r named target a b)

/- What finding a type again leads to. -/
theorem run_schemaOf
    {id : DescriptorId}
    {slot : SchemaId}
    (hRemembers : r.Remembers id slot)
    (hPresent : (ctx.table.get? id).isSome = true) :
    (Check.schemaOf ctx id).run { registry := r } =
      (slot, { registry := { r with hits := r.hits + 1 } }) := by
  change ((r.schemaWithin ctx.table ctx.depth id).2,
    ({ registry := (r.schemaWithin ctx.table ctx.depth id).1 } :
      CheckState)) = _
  rw [schemaWithin_of_remembered hRemembers hPresent]

/- A type test compares the type that it finds again. -/
theorem run_typeTest
    {id : DescriptorId}
    {slot : SchemaId}
    (hRemembers : r.Remembers id slot)
    (hPresent : (ctx.table.get? id).isSome = true)
    (span : Span)
    (scrutinee : SchemaId) :
    (Check.typeTest ctx span scrutinee id).run { registry := r } =
      (Check.testVerdict span scrutinee slot
        (r.pool.compat slot scrutinee)).run
          { registry := { r with hits := r.hits + 1 } } := by
  unfold Check.typeTest
  rw [Check.run_step, run_schemaOf hRemembers hPresent]
  rfl

/- The head of a constructor may name the scrutinee's type. -/
theorem run_head_of_names
    (span : Span)
    (scrutinee : SchemaId)
    {head : ConstructorHead}
    {name : String}
    (hName : head.typeName = some name)
    (hNames : r.pool.names scrutinee name = true) :
    (Check.head ctx span scrutinee head).run { registry := r } =
      (.ok { target := scrutinee, caseName := head.caseName },
        { registry := r }) := by
  rcases head with ⟨typeName, caseName, target⟩
  cases hName
  have hStep :
      ∃ rest : Check (Except Problem ResolvedHead),
        (Check.head ctx span scrutinee ⟨some name, caseName, target⟩).run
            { registry := r } =
          (if r.pool.names scrutinee name then
            return .ok { target := scrutinee, caseName }
          else
            rest).run { registry := r } :=
    ⟨_, rfl⟩
  rcases hStep with ⟨rest, hStep⟩
  rw [hStep, if_pos hNames]
  rfl

/- If not, then the type that it names is found again. -/
theorem run_head
    {id : DescriptorId}
    {slot : SchemaId}
    (hRemembers : r.Remembers id slot)
    (hPresent : (ctx.table.get? id).isSome = true)
    (span : Span)
    (scrutinee : SchemaId)
    {head : ConstructorHead}
    {name : String}
    (hTarget : head.target = some id)
    (hName : head.typeName = some name)
    (hOther : r.pool.names scrutinee name = false) :
    (Check.head ctx span scrutinee head).run { registry := r } =
      (Check.headVerdict span scrutinee name
        { target := scrutinee, caseName := head.caseName } slot
        (r.pool.compat slot scrutinee)).run
          { registry := { r with hits := r.hits + 1 } } := by
  rcases head with ⟨typeName, caseName, target⟩
  cases hTarget
  cases hName
  let own : ResolvedHead := { target := scrutinee, caseName }
  have hStep :
      (Check.head ctx span scrutinee ⟨some name, caseName, some id⟩).run
          { registry := r } =
        (if r.pool.names scrutinee name then
          (return .ok own : Check (Except Problem ResolvedHead))
        else do
          let slot ← Check.schemaOf ctx id
          Check.headVerdict span scrutinee name own slot
            ((← Check.pool).compat slot scrutinee)).run
              { registry := r } :=
    rfl
  rw [hStep, hOther, if_neg Bool.false_ne_true, Check.run_step,
    run_schemaOf hRemembers hPresent]
  rfl

end Registry.ReadsAlike

end MatchCompiler

------------------------------------------------------------
-- Outcomes With Either Target
------------------------------------------------------------

namespace MatchCompiler

/-
  No test is needed at run time, or the test asks for the same
  name.
-/
def Registry.TestsAlike
    (r : Registry)
    (id a b : SchemaId) : Prop :=
  r.pool.compat a id ≠ .deferred ∨ (r.get a).name = (r.get b).name

/-
  Two runs report as many problems, and if a condition holds
  then their patterns differ in slots at most.
-/
structure SameOutcome
    (C : Prop)
    (x x' : Checked × CheckState) : Prop where
  problems : x'.2.problems.length = x.2.problems.length
  bare : C → x'.1.bare = x.1.bare

/- Heads that mean schemas which look alike. -/
structure ResolvedHead.LooksLike
    (r : Registry)
    (C : Prop)
    (h h' : ResolvedHead) : Prop where
  target : (r.get h.target).LooksLike (r.get h'.target)
  caseName : h'.caseName = h.caseName
  runtimeType : C → h'.runtimeType = h.runtimeType

namespace Pattern

variable {ctx : CheckContext}
variable {s : CheckState}

/- Check a constructor pattern once its head is resolved. -/
def checkResolved
    (ctx : CheckContext)
    (span : Span)
    (nilCheck : Bool)
    (fields : List (FieldName × Pattern))
    (args : List Pattern) : Except Problem ResolvedHead → Check Checked
| .error problem => Check.reject span problem
| .ok resolved => do
    let target ← Check.schema resolved.target
    checkObject ctx span nilCheck resolved target fields args

/- Check a constructor pattern over an object. -/
def checkHead
    (ctx : CheckContext)
    (span : Span)
    (nilCheck : Bool)
    (id : SchemaId)
    (h : ConstructorHead)
    (fields : List (FieldName × Pattern))
    (args : List Pattern) : Check Checked := do
  checkResolved ctx span nilCheck fields args
    (← Check.head ctx span id h)

/- Check a constructor pattern over a schema of some kind. -/
def checkConstructor
    (ctx : CheckContext)
    (span : Span)
    (s : Schema)
    (id : SchemaId)
    (h : ConstructorHead)
    (fields : List (FieldName × Pattern))
    (args : List Pattern) : SchemaKind → Check Checked
| .optional => checkOptional ctx span s h fields.length args
| .record | .union => checkHead ctx span s.isReference id h fields args
| .unknown => Check.reject span (.unknownConstructed span s.displayName)
| kind => Check.reject span (.notConstructed span s.displayName kind)

/- The kind of the schema says how a constructor is checked. -/
theorem run_constructor
    (span : Span)
    (h : ConstructorHead)
    (fields : List (FieldName × Pattern))
    (args : List Pattern)
    (id : SchemaId) :
    ((Pattern.constructor span h fields args).check ctx id).run s =
      let t := s.registry.pool.get id
      (checkConstructor ctx span t id h fields args t.structuralKind).run
        s :=
  rfl

/- An optional is checked without the target. -/
theorem checkOptional_retargeted
    (span : Span)
    (t : Schema)
    (h : ConstructorHead)
    (target target' : Option DescriptorId)
    (count : Nat)
    (args : List Pattern) :
    checkOptional ctx span t { h with target } count args =
      checkOptional ctx span t { h with target := target' } count args := by
  rcases args with _ | ⟨p, _ | ⟨q, ps⟩⟩ <;> rfl

/- A type test keeps the pattern and leaves the slot. -/
theorem run_typeTest
    (span : Span)
    (target : DescriptorId)
    (id : SchemaId) :
    ((Pattern.typeTest span target).check ctx id).run s =
      let x := (Check.typeTest ctx span id target).run s
      (x.1.1, x.2) := by
  unfold check
  rw [Check.run_step]
  rfl

/- A narrowing binds its name at the slot. -/
theorem run_narrow
    (span : Span)
    (name : String)
    (target : DescriptorId)
    (id : SchemaId) :
    ((Pattern.narrow span name target).check ctx id).run s =
      let x := (Check.typeTest ctx span id target).run s
      (.bind span name x.1.1, ((Check.bind name x.1.2 span).run x.2).2) := by
  unfold check
  rw [Check.run_step]
  generalize (Check.typeTest ctx span id target).run s = x
  rfl

end Pattern

/- A name is bound without a problem if there is none before. -/
theorem Check.problems_bind
    (name : String)
    (slot : SchemaId)
    (span : Span)
    {s : CheckState}
    (h : s.bindings = []) :
    ((Check.bind name slot span).run s).2.problems = s.problems := by
  rcases s with ⟨registry, problems, bindings⟩
  cases h
  rfl

namespace Registry.ReadsAlike

variable {ctx : CheckContext}
variable {r : Registry}
variable {named target : DescriptorId}
variable {a b : SchemaId}
variable (h : ReadsAlike ctx.table r named target a b)

include h

/- Types are compared alike, so their tests have one outcome. -/
theorem sameOutcome_typeTest
    (span : Span)
    (id : SchemaId) :
    let x := (Check.typeTest ctx span id named).run { registry := r }
    let x' := (Check.typeTest ctx span id target).run { registry := r }
    x.2.bindings = [] ∧ x'.2.bindings = [] ∧
    SameOutcome (r.TestsAlike id a b) (x.1.1, x.2) (x'.1.1, x'.2) := by
  rw [run_typeTest h.first h.isSome_first,
    run_typeTest h.second h.isSome_second,
    ← SchemaPool.compat_congr h.unwrap rfl]
  cases hCompat : r.pool.compat a id with
  | exact => exact ⟨rfl, rfl, rfl, fun _ => rfl⟩
  | numeric => exact ⟨rfl, rfl, rfl, fun _ => rfl⟩
  | incompatible => exact ⟨rfl, rfl, rfl, fun _ => rfl⟩
  | deferred =>
      refine ⟨rfl, rfl, rfl, fun hAlike => ?_⟩
      have hName := hAlike.resolve_left fun hNot => hNot hCompat
      exact congrArg (Checked.typeIs span 0) hName.symm

/- The head of a constructor means schemas that look alike. -/
theorem exists_heads
    (span : Span)
    (id : SchemaId)
    (head : ConstructorHead) :
    ∃ r₁ y y',
      (Check.head ctx span id { head with target := some named }).run
          { registry := r } = (y, { registry := r₁ }) ∧
      (Check.head ctx span id { head with target := some target }).run
          { registry := r } = (y', { registry := r₁ }) ∧
      r₁.pool = r.pool ∧ r₁.Settled ∧
      BothOk (ResolvedHead.LooksLike r (r.TestsAlike id a b)) y y' := by
  rcases head with ⟨typeName, caseName, other⟩
  have hOwn :
      ResolvedHead.LooksLike r (r.TestsAlike id a b)
        { target := id, caseName } { target := id, caseName } :=
    ⟨.refl _, rfl, fun _ => rfl⟩
  cases typeName with
  | none => exact ⟨r, _, _, rfl, rfl, rfl, h.settled, .ok hOwn⟩
  | some name =>
      cases hNames : r.pool.names id name with
      | true =>
          exact ⟨r, _, _, run_head_of_names span id rfl hNames,
            run_head_of_names span id rfl hNames, rfl, h.settled, .ok hOwn⟩
      | false =>
          have hUse := r.use_schemaWithin ctx.table ctx.depth named
          rw [schemaWithin_of_remembered h.first h.isSome_first] at hUse
          have hFound := (hUse.settled h.settled).1
          rw [run_head h.first h.isSome_first span id rfl rfl hNames,
            run_head h.second h.isSome_second span id rfl rfl hNames,
            ← SchemaPool.compat_congr h.unwrap rfl]
          refine ⟨{ r with hits := r.hits + 1 }, ?_⟩
          cases hCompat : r.pool.compat a id with
          | exact =>
              exact ⟨_, _, rfl, rfl, rfl, hFound,
                .ok ⟨h.looksLike, rfl, fun _ => rfl⟩⟩
          | deferred =>
              refine ⟨_, _, rfl, rfl, rfl, hFound,
                .ok ⟨h.looksLike, rfl, fun hAlike => ?_⟩⟩
              have hName := hAlike.resolve_left fun hNot => hNot hCompat
              exact congrArg some hName.symm
          | numeric => exact ⟨_, _, rfl, rfl, rfl, hFound, .error _ _⟩
          | incompatible => exact ⟨_, _, rfl, rfl, rfl, hFound, .error _ _⟩

/- Objects are taken apart alike with either target. -/
theorem sameOutcome_head
    (span : Span)
    (nilCheck : Bool)
    (id : SchemaId)
    (head : ConstructorHead)
    (fields : List (FieldName × Pattern))
    (args : List Pattern) :
    let check := fun target? => Pattern.checkHead ctx span nilCheck id
      { head with target := target? } fields args
    SameOutcome (r.TestsAlike id a b)
      ((check (some named)).run { registry := r })
      ((check (some target)).run { registry := r }) := by
  intro check
  rcases h.exists_heads span id head with
    ⟨r₁, y, y', hFirst, hSecond, hPool, hSettled, hBoth⟩
  have hRun :
      ∀ target?, (check target?).run { registry := r } =
        let x := (Check.head ctx span id
          { head with target := target? }).run { registry := r }
        (Pattern.checkResolved ctx span nilCheck fields args x.1).run x.2 :=
    fun _ => rfl
  rw [hRun, hRun, hFirst, hSecond]
  dsimp only
  cases hBoth with
  | error e e' => exact ⟨rfl, fun _ => rfl⟩
  | @ok resolved resolved' hSame =>
      have hTarget :
          (r₁.pool.get resolved.target).LooksLike
            (r₁.pool.get resolved'.target) := by
        rw [hPool]
        exact hSame.target
      have hParts : ∀ q : Pattern, q.ChecksAlike (Pairing.same ctx) :=
        fun q => q.checksAlike fun _ _ => trivial
      have hStart :
          CheckState.Paired (Pairing.same ctx) (.equal r₁.pool.size)
            { registry := r₁ } { registry := r₁ } :=
        ⟨⟨rfl, hSettled, rfl⟩, .nil, rfl⟩
      rcases Pattern.checkObject_alike span nilCheck hSame.caseName hTarget
        (hSettled.closed.pool.slots _)
        (fun f (_ : f ∈ fields) => hParts f.2)
        (fun q (_ : q ∈ args) => hParts q) _ _ hStart with
        ⟨T, -, hPaired, hBare⟩
      exact ⟨hPaired.problems, fun hAlike =>
        hBare (hSame.runtimeType hAlike)⟩

/- So it is with either target whatever the scrutinee is. -/
theorem sameOutcome_constructor
    (span : Span)
    (id : SchemaId)
    (head : ConstructorHead)
    (fields : List (FieldName × Pattern))
    (args : List Pattern) :
    let p := Pattern.constructor span
      { head with target := some named } fields args
    let p' := Pattern.constructor span
      { head with target := some target } fields args
    SameOutcome (r.TestsAlike id a b)
      ((p.check ctx id).run { registry := r })
      ((p'.check ctx id).run { registry := r }) := by
  intro p p'
  rw [Pattern.run_constructor, Pattern.run_constructor]
  dsimp only
  generalize (r.pool.get id).structuralKind = kind
  cases kind with
  | optional =>
      unfold Pattern.checkConstructor
      dsimp only
      rw [Pattern.checkOptional_retargeted span _ head (some target)
        (some named)]
      exact ⟨rfl, fun _ => rfl⟩
  | record => exact h.sameOutcome_head span _ id head fields args
  | union => exact h.sameOutcome_head span _ id head fields args
  | _ => exact ⟨rfl, fun _ => rfl⟩

/- A pattern with either target has the same outcome. -/
theorem sameOutcome
    {p p' : Pattern}
    (hTargets : p.Retargets named target p')
    (id : SchemaId) :
    SameOutcome (r.TestsAlike id a b)
      ((p.check ctx id).run { registry := r })
      ((p'.check ctx id).run { registry := r }) := by
  cases hTargets with
  | typeTest span =>
      rw [Pattern.run_typeTest, Pattern.run_typeTest]
      exact (h.sameOutcome_typeTest span id).2.2
  | narrow span x =>
      rw [Pattern.run_narrow, Pattern.run_narrow]
      rcases h.sameOutcome_typeTest span id with
        ⟨hFirst, hSecond, hProblems, hBare⟩
      refine ⟨?_, fun hAlike => congrArg (Checked.bind span x) (hBare hAlike)⟩
      rw [Check.problems_bind _ _ _ hFirst, Check.problems_bind _ _ _ hSecond]
      exact hProblems
  | constructor span head fields args =>
      exact h.sameOutcome_constructor span id head fields args

end Registry.ReadsAlike

end MatchCompiler

------------------------------------------------------------
-- Targets Behind Views
------------------------------------------------------------

namespace MatchCompiler

namespace Registry

variable {ctx : CheckContext}
variable {r : Registry}
variable {named target : DescriptorId}
variable {a b : SchemaId}

/- Slots on a chain of views to an object read alike. -/
theorem ReadsAlike.of_path
    (hBuilt : r.BuiltWith ctx.table)
    (hAcyclic : r.pool.Acyclic)
    (hNamed : r.Remembers named a)
    (hTarget : r.Remembers target b)
    (hPresent : (ctx.table.get? named).isSome = true)
    (hPresent' : (ctx.table.get? target).isSome = true)
    (hPath : Relation.ReflTransGen r.pool.Links a b)
    (hObject : (r.get (r.pool.unwrap a)).kind.IsObject) :
    ReadsAlike ctx.table r named target a b := by
  have hSettled := hBuilt.allSettled hAcyclic
  have hUnwrap := hSettled.unwrap_eq_of_path hAcyclic hPath
  have hFirst := hSettled.readsAs (hSettled.comesTo_unwrap hAcyclic a)
  have hSecond := hSettled.readsAs (hSettled.comesTo_unwrap hAcyclic b)
  rw [← hUnwrap] at hSecond
  refine ⟨hBuilt.settled, hNamed, hTarget, hPresent, hPresent', hUnwrap, ?_⟩
  exact hFirst.looksLike hSecond hObject
    (hBuilt.obeys Schema.law_tellsUnion _)

/- Patterns with either target come to arms with equal clauses. -/
theorem ReadsAlike.bothOk_checkArm
    (h : ReadsAlike ctx.table r named target a b)
    {p p' : Pattern}
    (hTargets : p.Retargets named target p')
    (id : SchemaId) :
    BothOk
      (fun arm arm' => r.TestsAlike id a b →
        ∀ o i, arm'.clause o i = arm.clause o i)
      (r.checkArm ctx id p).2 (r.checkArm ctx id p').2 := by
  have hSame := h.sameOutcome hTargets id
  refine (Registry.bothOk_checkArm hSame.problems).mono ?_
  rintro _ _ ⟨rfl, rfl⟩ hAlike o i
  exact CheckedArm.clause_eq_of_bare (hSame.bare hAlike) o i

/- A test at run time asks for the name of the type it is for. -/
theorem checkArm_typeTest_of_deferred
    {slot : SchemaId}
    (hNamed : r.Remembers named slot)
    (hPresent : (ctx.table.get? named).isSome = true)
    (span : Span)
    {id : SchemaId}
    (hCompat : r.pool.compat slot id = .deferred) :
    (r.checkArm ctx id (.typeTest span named)).2 =
      .ok ⟨.typeIs span slot (r.get slot).name, []⟩ := by
  unfold checkArm
  rw [Pattern.run_typeTest, ReadsAlike.run_typeTest hNamed hPresent,
    hCompat]
  rfl

/- Equal clauses of type tests ask for one name, if at all. -/
theorem ReadsAlike.testsAlike_of_clause_eq
    (h : ReadsAlike ctx.table r named target a b)
    (span : Span)
    (id : SchemaId)
    {arm arm' : CheckedArm}
    (hArm : (r.checkArm ctx id (.typeTest span named)).2 = .ok arm)
    (hArm' : (r.checkArm ctx id (.typeTest span target)).2 = .ok arm')
    {o : LoweringOptions}
    {i : Nat}
    (hEq : arm'.clause o i = arm.clause o i) :
    r.TestsAlike id a b := by
  by_cases hCompat : r.pool.compat a id = .deferred
  · right
    have hCompat' := hCompat
    rw [SchemaPool.compat_congr h.unwrap rfl] at hCompat'
    rw [checkArm_typeTest_of_deferred h.first h.isSome_first span hCompat]
      at hArm
    rw [checkArm_typeTest_of_deferred h.second h.isSome_second span
      hCompat'] at hArm'
    cases hArm
    cases hArm'
    have hTest :
        Test.typeIs .scrutinee (r.get b).name =
          .typeIs .scrutinee (r.get a).name :=
      congrArg Clause.test hEq
    injection hTest with _ hName
    exact hName.symm
  · exact .inl hCompat

/-
  A type test, a narrowing or a constructor that names an
  alias of a type, a reference to it, or a chain of these, is
  accepted if it is accepted with the type itself. The arms
  have equal clauses, and so the same verdict on all values,
  if the types need no test at run time, or if the two slots
  have one name. That they have if there are only aliases on
  the chain. A type test at run time that asks for another
  name is a different test.
-/
theorem checkArm_of_target_behind_views
    (hBuilt : r.BuiltWith ctx.table)
    (hAcyclic : r.pool.Acyclic)
    (hNamed : r.Remembers named a)
    (hTarget : (ctx.table.get? target).isSome = true)
    (hLeads :
      ctx.table.Leads TypeTable.anyView (.described named)
        (.described target))
    (hObject : (r.get (r.pool.unwrap a)).kind.IsObject) :
    ∃ b, r.Remembers target b ∧ r.pool.unwrap b = r.pool.unwrap a ∧
      (ctx.table.Leads TypeTable.aliasView (.described named)
          (.described target) →
        (r.get a).name = (r.get b).name) ∧
      ∀ (id : SchemaId) (p p' : Pattern), p.Retargets named target p' →
        ((r.checkArm ctx id p).2.isOk = true ↔
          (r.checkArm ctx id p').2.isOk = true) ∧
        ∀ arm arm', (r.checkArm ctx id p).2 = .ok arm →
          (r.checkArm ctx id p').2 = .ok arm' →
          (r.TestsAlike id a b → ∀ o i, arm'.clause o i = arm.clause o i) ∧
          ∀ span o i, p = .typeTest span named →
            arm'.clause o i = arm.clause o i → r.TestsAlike id a b := by
  rcases exists_links_of_leads hBuilt hAcyclic hNamed hLeads with
    ⟨b, hRemembers, hPath, -⟩
  have hPresent := hLeads.isSome_get? hTarget
  have h := ReadsAlike.of_path hBuilt hAcyclic hNamed hRemembers hPresent
    hTarget hPath hObject
  refine ⟨b, hRemembers, h.unwrap.symm, fun hAliases => ?_,
    fun id p p' hTargets => ?_⟩
  · rcases exists_links_of_leads hBuilt hAcyclic hNamed hAliases with
      ⟨c, hSame, -, hNames⟩
    cases Option.some.inj (hSame.2.symm.trans hRemembers.2)
    exact hNames fun _ hKind => hKind
  · have hBoth := h.bothOk_checkArm hTargets id
    refine ⟨?_, fun arm arm' hArm hArm' => ⟨?_, ?_⟩⟩
    · rw [hBoth.isOk_eq]
    · rw [hArm, hArm'] at hBoth
      cases hBoth with
      | ok hClauses => exact hClauses
    · rintro span o i rfl hEq
      cases hTargets
      exact h.testsAlike_of_clause_eq span id hArm hArm' hEq

/- What is accepted gives an arm. -/
theorem exists_ok_of_isOk
    {ε α : Type}
    {x : Except ε α}
    (h : x.isOk = true) :
    ∃ arm, x = .ok arm := by
  cases x with
  | error e => cases h
  | ok arm => exact ⟨arm, rfl⟩

/- A derived object, a reference to it and an alias of it. -/
def viewedDerived : TypeTable :=
  { descriptors :=
      #[{ name := "Base",
          shape := .object
            { fields := [⟨"x", .described 4, false⟩],
              inheritable := true } },
        { name := "Derived",
          shape := .object { base := some (.described 0) } },
        { name := "DerivedRef", shape := .reference (.described 1) },
        { name := "DerivedAlias", shape := .alias (.described 1) },
        { name := "int", shape := .primitive .i64 }] }

theorem viewedDerived_shows
    (kind : ViewKind)
    {id : DescriptorId}
    (hShape :
      viewedDerived.shape? id = some (kind.shape (.described 1))) :
    viewedDerived.Shows kind (.described id) (.described 1) :=
  .view hShape

/- The registry after the reference has been extracted. -/
def viewedDerivedFirst : Registry :=
  ((extract? {} viewedDerived 5 2).map Prod.fst).getD {}

/- The registry after the alias has been extracted too. -/
def viewedDerivedRegistry : Registry :=
  ((viewedDerivedFirst.extract? viewedDerived 5 3).map Prod.fst).getD {}

theorem viewedDerivedRegistry_built :
    viewedDerivedRegistry.BuiltWith viewedDerived ∧
    viewedDerivedRegistry.pool.Acyclic := by
  have hFirst : Extracts {} viewedDerived 2 viewedDerivedFirst 0 :=
    extracts_of_map_snd (by decide +kernel)
  have hSecond :
      viewedDerivedFirst.Extracts viewedDerived 3
        viewedDerivedRegistry 4 :=
    extracts_of_map_snd (by decide +kernel)
  refine ⟨.extract (.extract (.fresh 'k') hFirst) hSecond, ?_⟩
  exact SchemaPool.acyclic_of_rank
    (fun slot => if slot = 0 ∨ slot = 4 then 1 else 0) (by decide +kernel)

/- A constructor for the derived object, under one of its names. -/
def derivedConstructor (target : DescriptorId) : Pattern :=
  .constructor {} { typeName := some "Derived", target := some target }
    [(⟨"x", {}⟩, .bind {} "n")] []

/- The alias is tested for like the derived object. -/
theorem derivedAlias_clause_eq :
    let r := viewedDerivedRegistry
    let ctx : CheckContext := { table := viewedDerived, marker := 'k' }
    r.pool.compat 4 2 = .deferred ∧
    ∃ arm arm',
      (r.checkArm ctx 2 (derivedConstructor 3)).2 = .ok arm ∧
      (r.checkArm ctx 2 (derivedConstructor 1)).2 = .ok arm' ∧
      ∀ o i, arm'.clause o i = arm.clause o i := by
  intro r ctx
  rcases viewedDerivedRegistry_built with ⟨hBuilt, hAcyclic⟩
  have hNamed : r.Remembers 3 4 := ⟨by decide +kernel, by decide +kernel⟩
  have hAliases :
      ctx.table.Leads TypeTable.aliasView (.described 3) (.described 1) :=
    .single rfl (viewedDerived_shows .alias rfl)
  have hObject : (r.get (r.pool.unwrap 4)).kind.IsObject :=
    .inl (by decide +kernel)
  rcases checkArm_of_target_behind_views hBuilt hAcyclic hNamed rfl
    hAliases.any hObject with ⟨b, -, -, hNames, hAccepted⟩
  have hTargets :
      (derivedConstructor 3).Retargets 3 1 (derivedConstructor 1) :=
    .constructor {} { typeName := some "Derived" } _ []
  rcases hAccepted 2 _ _ hTargets with ⟨hOk, hClauses⟩
  have hFirst : (r.checkArm ctx 2 (derivedConstructor 3)).2.isOk = true := by
    decide +kernel
  rcases exists_ok_of_isOk hFirst with ⟨arm, hArm⟩
  rcases exists_ok_of_isOk (hOk.mp hFirst) with ⟨arm', hArm'⟩
  exact ⟨by decide +kernel, arm, arm', hArm, hArm',
    (hClauses arm arm' hArm hArm').1 (.inr (hNames hAliases))⟩

/-
  The reference is accepted like the derived object, but a
  derived object does not pass the test for the reference.
-/
theorem derivedRef_not_matched :
    let r := viewedDerivedRegistry
    let ctx : CheckContext := { table := viewedDerived, marker := 'k' }
    let host : GuardHost Unit := fun _ _ => pure true
    let derived := Value.object ["Derived", "Base"] [("x", .int 5)]
    r.BuiltWith viewedDerived ∧ r.pool.Acyclic ∧
    ctx.table.Leads TypeTable.anyView (.described 2) (.described 1) ∧
    ∃ arm arm',
      (r.checkArm ctx 2 (.typeTest {} 2)).2 = .ok arm ∧
      (r.checkArm ctx 2 (.typeTest {} 1)).2 = .ok arm' ∧
      ((arm.clause {} 0).run host derived ()).1 = .ok none ∧
      ((arm'.clause {} 0).run host derived ()).1 = .ok (some []) := by
  intro r ctx host derived
  rcases viewedDerivedRegistry_built with ⟨hBuilt, hAcyclic⟩
  have hRef :
      (r.checkArm ctx 2 (.typeTest {} 2)).2 =
        .ok ⟨.typeIs {} 0 (r.get 0).name, []⟩ :=
    checkArm_typeTest_of_deferred ⟨by decide +kernel, by decide +kernel⟩
      rfl {} (by decide +kernel)
  have hDerived :
      (r.checkArm ctx 2 (.typeTest {} 1)).2 =
        .ok ⟨.typeIs {} 1 (r.get 1).name, []⟩ :=
    checkArm_typeTest_of_deferred ⟨by decide +kernel, by decide +kernel⟩
      rfl {} (by decide +kernel)
  have hRefName : (r.get 0).name = "DerivedRef" := by decide +kernel
  have hDerivedName : (r.get 1).name = "Derived" := by decide +kernel
  rw [hRefName] at hRef
  rw [hDerivedName] at hDerived
  exact ⟨hBuilt, hAcyclic,
    .single trivial (viewedDerived_shows .reference rfl), _, _, hRef,
    hDerived, rfl, rfl⟩

end Registry

end MatchCompiler
