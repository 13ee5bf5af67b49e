import MatchCompiler.Proofs.TwinSlots

/-
  This file takes every step of checking twice, from states
  that look alike.

  Two registries look alike if what checking sees of them
  differs only in the slots that it is kept in. A step then
  goes the same way in both: it reports as many problems and
  binds the same names at twin slots. The texts of problems
  may differ.

  Key definitions include:
    * `Pairing`
    * `CheckState.Paired`
    * `Alike`
    * `Schema.LooksLike`

  Key theorems include:
    * `Alike.bind`
    * `Alike.typeTest`
    * `Alike.compareAlternative`
    * `Alike.head`
-/

------------------------------------------------------------
-- States That Look Alike
------------------------------------------------------------

namespace MatchCompiler

/-
  A way for registries to look alike while some descriptors
  are known: their pools are paired, and extracting a known
  descriptor or sharing a sequence of an old slot in both
  leads to twins in registries that look alike again.
-/
structure Pairing
    (ctx : CheckContext) where
  Holds : Twins → Registry → Registry → Prop
  Known : DescriptorId → Prop
  pools :
    ∀ {T r r'}, Holds T r r' →
      SchemaPool.Paired T r.pool r'.pool
  schemaOf :
    ∀ {T r r' id}, Holds T r r' → Known id →
      ∃ T' : Twins, T.Grows T' ∧
        Holds T' (r.schemaWithin ctx.table ctx.depth id).1
          (r'.schemaWithin ctx.table ctx.depth id).1 ∧
        T'.Rel (r.schemaWithin ctx.table ctx.depth id).2
          (r'.schemaWithin ctx.table ctx.depth id).2
  sequenceOf :
    ∀ {T r r' element}, Holds T r r' → element < T.old →
      ∃ T' : Twins, T.Grows T' ∧
        Holds T' { r with pool := (r.pool.sequenceOf element).1 }
          { r' with pool := (r'.pool.sequenceOf element).1 } ∧
        T'.Rel (r.pool.sequenceOf element).2
          (r'.pool.sequenceOf element).2

/- One name is bound at twin slots. -/
structure Binding.Paired
    (T : Twins)
    (b b' : Binding) : Prop where
  name : b'.name = b.name
  schema : T.Rel b.schema b'.schema

/- States of checking with as many problems. -/
structure CheckState.Paired
    {ctx : CheckContext}
    (P : Pairing ctx)
    (T : Twins)
    (s s' : CheckState) : Prop where
  registries : P.Holds T s.registry s'.registry
  bindings : List.Forall₂ (Binding.Paired T) s.bindings s'.bindings
  problems : s'.problems.length = s.problems.length

/-
  Two steps of checking lead from states that look alike to
  such states; their results are as described.
-/
def Alike
    {ctx : CheckContext}
    (P : Pairing ctx)
    (T : Twins)
    {α : Type}
    (m m' : Check α)
    (post : Twins → α → α → Prop) : Prop :=
  ∀ s s', CheckState.Paired P T s s' →
    ∃ T' : Twins, T.Grows T' ∧
      CheckState.Paired P T' (m.run s).2 (m'.run s').2 ∧
      post T' (m.run s).1 (m'.run s').1

/- The results are patterns that differ in slots at most. -/
def Checked.SameBare (_ : Twins) (q q' : Checked) : Prop :=
  q'.bare = q.bare

namespace Binding

variable {T T' : Twins}
variable {b b' : Binding}
variable {bs bs' : List Binding}

theorem Paired.mono
    (h : Paired T b b')
    (hGrows : T.Grows T') :
    Paired T' b b' :=
  ⟨h.name, hGrows.rel _ _ h.schema⟩

theorem forall₂_mono
    (h : List.Forall₂ (Paired T) bs bs')
    (hGrows : T.Grows T') :
    List.Forall₂ (Paired T') bs bs' :=
  h.imp fun _ _ hPaired => hPaired.mono hGrows

theorem map_name_eq
    (h : List.Forall₂ (Paired T) bs bs') :
    bs'.map name = bs.map name := by
  induction h with
  | nil => rfl
  | cons hHead _ ih => rw [List.map_cons, List.map_cons, hHead.name, ih]

/- A name is bound in both lists at twins, or in neither. -/
theorem cases_of_find?
    (h : List.Forall₂ (Paired T) bs bs')
    (x : String) :
    (bs.find? (fun b => b.name == x) = none ∧
      bs'.find? (fun b => b.name == x) = none) ∨
    ∃ b b', bs.find? (fun b => b.name == x) = some b ∧
      bs'.find? (fun b => b.name == x) = some b' ∧ Paired T b b' := by
  induction h with
  | nil => exact .inl ⟨rfl, rfl⟩
  | @cons b b' bs bs' hHead _ ih =>
      simp only [List.find?_cons, hHead.name]
      cases b.name == x with
      | true => exact .inr ⟨b, b', rfl, rfl, hHead⟩
      | false => exact ih

end Binding

namespace Alike

variable {ctx : CheckContext}
variable {P : Pairing ctx}
variable {T T' : Twins}
variable {α β : Type}
variable {post : Twins → α → α → Prop}

theorem pure
    {x x' : α}
    (h : post T x x') :
    Alike P T (Pure.pure x) (Pure.pure x') post :=
  fun _ _ hs => ⟨T, .refl, hs, h⟩

/- A step after a step; there may be more twins then. -/
theorem bind
    {m m' : Check α}
    {f f' : α → Check β}
    {mid : Twins → α → α → Prop}
    {post : Twins → β → β → Prop}
    (hm : Alike P T m m' mid)
    (hf :
      ∀ T' x x', T.Grows T' → mid T' x x' →
        Alike P T' (f x) (f' x') post) :
    Alike P T (m >>= f) (m' >>= f') post := by
  intro s s' hs
  rcases hm s s' hs with ⟨T₁, hGrows, hs₁, hMid⟩
  rcases hf T₁ _ _ hGrows hMid _ _ hs₁ with ⟨T₂, hGrows', hs₂, hPost⟩
  exact ⟨T₂, hGrows.trans hGrows', hs₂, hPost⟩

theorem mono
    {m m' : Check α}
    {pre : Twins → α → α → Prop}
    (h : Alike P T m m' pre)
    (hImp : ∀ T x x', pre T x x' → post T x x') :
    Alike P T m m' post := by
  intro s s' hs
  rcases h s s' hs with ⟨T₁, hGrows, hs₁, hPre⟩
  exact ⟨T₁, hGrows, hs₁, hImp _ _ _ hPre⟩

/- One problem is reported in either run. -/
theorem report (problem problem' : Problem) :
    Alike P T (Check.report problem) (Check.report problem')
      fun _ _ _ => True := by
  intro s s' hs
  refine ⟨T, .refl, ⟨hs.registries, hs.bindings, ?_⟩, trivial⟩
  change (s'.problems ++ [problem']).length =
    (s.problems ++ [problem]).length
  rw [List.length_append, List.length_append, hs.problems]
  rfl

theorem reject
    (span : Span)
    (problem problem' : Problem) :
    Alike P T (Check.reject span problem) (Check.reject span problem')
      Checked.SameBare :=
  (report problem problem').bind fun _ _ _ _ _ => pure rfl

theorem current :
    Alike P T get get fun T s s' => CheckState.Paired P T s s' :=
  fun _ _ hs => ⟨T, .refl, hs, hs⟩

theorem pool :
    Alike P T Check.pool Check.pool fun T p p' =>
      SchemaPool.Paired T p p' :=
  fun _ _ hs => ⟨T, .refl, hs, P.pools hs.registries⟩

variable {id id' : SchemaId}

/- Twins hold one schema. -/
theorem schema
    (hId : T.Rel id id') :
    Alike P T (Check.schema id) (Check.schema id') fun T s s' =>
      s' = s ∧ s.Within T.old := by
  refine pool.bind fun T₁ p p' hGrows hPools => pure ?_
  have hTwins := hGrows.rel id id' hId
  exact ⟨hPools.get_eq id id' hTwins, hPools.within id id' hTwins⟩

theorem typeName (id id' : SchemaId) :
    Alike P T (Check.typeName id) (Check.typeName id')
      fun _ _ _ => True :=
  pool.bind fun _ _ _ _ _ => pure trivial

theorem schemaOf
    {target : DescriptorId}
    (hKnown : P.Known target) :
    Alike P T (Check.schemaOf ctx target) (Check.schemaOf ctx target)
      Twins.Rel := by
  intro s s' hs
  rcases P.schemaOf hs.registries hKnown with ⟨T₁, hGrows, hHolds, hRel⟩
  exact ⟨T₁, hGrows,
    ⟨hHolds, Binding.forall₂_mono hs.bindings hGrows, hs.problems⟩, hRel⟩

theorem sequenceOf
    {element : SchemaId}
    (hElement : element < T.old) :
    Alike P T (Check.sequenceOf element) (Check.sequenceOf element)
      Twins.Rel := by
  intro s s' hs
  rcases P.sequenceOf hs.registries hElement with
    ⟨T₁, hGrows, hHolds, hRel⟩
  exact ⟨T₁, hGrows,
    ⟨hHolds, Binding.forall₂_mono hs.bindings hGrows, hs.problems⟩, hRel⟩

theorem resetBindings
    {bs bs' : List Binding}
    (h : List.Forall₂ (Binding.Paired T) bs bs') :
    Alike P T (Check.resetBindings bs) (Check.resetBindings bs')
      fun _ _ _ => True :=
  fun _ _ hs => ⟨T, .refl, ⟨hs.registries, h, hs.problems⟩, trivial⟩

end Alike

end MatchCompiler

------------------------------------------------------------
-- Results That Look Alike
------------------------------------------------------------

namespace MatchCompiler

/- Two results are related, or both are problems. -/
inductive BothOk
    {ε α : Type}
    (R : α → α → Prop) : Except ε α → Except ε α → Prop
| ok
    {x x' : α}
    (h : R x x') :
    BothOk R (.ok x) (.ok x')
| error
    (e e' : ε) :
    BothOk R (.error e) (.error e')

namespace BothOk

variable {ε α : Type}
variable {R S : α → α → Prop}
variable {x x' : Except ε α}

theorem mono
    (h : BothOk R x x')
    (hImp : ∀ a a', R a a' → S a a') :
    BothOk S x x' := by
  cases h with
  | ok h => exact .ok (hImp _ _ h)
  | error e e' => exact .error e e'

theorem isOk_eq
    (h : BothOk R x x') :
    x'.isOk = x.isOk := by
  cases h <;> rfl

end BothOk

/-
  Schemas that differ at most in their name, in what they
  stand for and in other parts that no constructor pattern
  reads.
-/
structure Schema.LooksLike
    (s s' : Schema) : Prop where
  kind : s'.structuralKind = s.structuralKind
  fields : s'.fields = s.fields
  branches : s'.branches = s.branches
  discriminator : s'.discriminator = s.discriminator
  discriminatorName :
    s.structuralKind = .union →
    s'.discriminatorName = s.discriminatorName

namespace Schema

variable {s s' : Schema}

theorem LooksLike.refl (s : Schema) : s.LooksLike s :=
  ⟨rfl, rfl, rfl, rfl, fun _ => rfl⟩

/- A case name pins the same branches, of a union only. -/
theorem LooksLike.pinCase
    (h : s.LooksLike s')
    (marker : Char)
    (caseName : String)
    (span : Span) :
    BothOk (fun labels labels' =>
        labels' = labels ∧ s.structuralKind = .union)
      (s.pinCase marker caseName span)
      (s'.pinCase marker caseName span) := by
  unfold Schema.pinCase Schema.branch?
  dsimp only
  rw [h.kind, h.branches]
  split
  · exact .error _ _
  · rename_i hKind
    have hUnion : s.structuralKind = .union := by
      simpa using hKind
    split
    · exact .ok ⟨rfl, hUnion⟩
    · exact .ok ⟨rfl, hUnion⟩
    · exact .error _ _
    · exact .error _ _

/- What an optional case name pins. -/
theorem LooksLike.mapM_pinCase
    (h : s.LooksLike s')
    (marker : Char)
    (caseName : Option String)
    (span : Span) :
    BothOk (fun labels labels' =>
        labels' = labels ∧
        (labels.isSome = true → s.structuralKind = .union))
      (caseName.mapM fun c => s.pinCase marker c span)
      (caseName.mapM fun c => s'.pinCase marker c span) := by
  cases caseName with
  | none => exact .ok ⟨rfl, nofun⟩
  | some c =>
      have hCase := h.pinCase marker c span
      simp only [Option.mapM_some]
      generalize s.pinCase marker c span = r at hCase ⊢
      generalize s'.pinCase marker c span = r' at hCase ⊢
      cases hCase with
      | error e e' => exact .error e e'
      | ok hSame => exact .ok ⟨congrArg some hSame.1, fun _ => hSame.2⟩

/- The same fields can be read. -/
theorem LooksLike.readable
    (h : s.LooksLike s')
    (pinned : Option (List Member))
    (name : String)
    (span : Span) :
    BothOk (fun f? f?' => f?' = f?)
      (s.readable pinned name span) (s'.readable pinned name span) := by
  unfold Schema.readable Schema.field? Schema.owners
    Schema.pinnedField? Schema.branch?
  dsimp only
  rw [h.fields, h.branches]
  split
  · exact .ok rfl
  · split
    · exact .error _ _
    · split
      · exact .error _ _
      · split
        · exact .ok rfl
        · exact .error _ _

theorem LooksLike.isDiscriminator
    (h : s.LooksLike s')
    (name : String) :
    s'.isDiscriminator name = s.isDiscriminator name := by
  unfold Schema.isDiscriminator
  rw [h.discriminator]

theorem LooksLike.positionalFields
    (h : s.LooksLike s')
    (pinned : Option (List Member)) :
    s'.positionalFields pinned = s.positionalFields pinned := by
  unfold Schema.positionalFields Schema.isDiscriminator Schema.branch?
  rw [h.fields, h.branches, h.discriminator]

theorem LooksLike.label?
    (h : s.LooksLike s')
    (label : String) :
    s'.label? label = s.label? label := by
  unfold Schema.label? Schema.branch?
  rw [h.branches]

end Schema

namespace Checked

variable {s s' : Schema}

theorem labelsOfAll_eq
    {qs : List Checked}
    (h : ∀ q ∈ qs, q.labels s' = q.labels s)
    (known : List Member) :
    labelsOfAll s' known qs = labelsOfAll s known qs := by
  induction qs generalizing known with
  | nil => rfl
  | cons q qs ih =>
      rcases List.forall_mem_cons.mp h with ⟨hHead, hTail⟩
      simp only [labelsOfAll, hHead]
      split
      · rfl
      · exact ih hTail _

/- A pattern allows the same labels. -/
theorem labels_eq
    (h : s.LooksLike s')
    (q : Checked) :
    q.labels s' = q.labels s := by
  induction q using partInduction with
  | wildcard span => rfl
  | bind span x p ih => exact ih
  | literal span l =>
      cases l with
      | member m => rfl
      | nil => rfl
      | none => rfl
      | value l => cases l <;> simp only [labels, h.label?]
  | alt span ps ih => exact labelsOfAll_eq ih []
  | guarded span p id ih => exact ih
  | object span head fs => rfl
  | some span p => rfl
  | tuple span items => rfl
  | seq span l fixed items spread => rfl
  | map span es => rfl
  | set span p => rfl
  | typeIs span id name => rfl

end Checked

end MatchCompiler

------------------------------------------------------------
-- Nodes Without Parts
------------------------------------------------------------

namespace MatchCompiler

/- The same names are missing. -/
theorem namesOutside_eq
    {T : Twins}
    {bs bs' others others' : List Binding}
    (h : List.Forall₂ (Binding.Paired T) bs bs')
    (hOthers : List.Forall₂ (Binding.Paired T) others others') :
    Check.namesOutside bs' others' = Check.namesOutside bs others := by
  have hAny :
      ∀ n, others'.any (fun b => b.name == n) =
        others.any (fun b => b.name == n) := by
    intro n
    have hNames := Binding.map_name_eq hOthers
    have hBoth :
        (others'.map Binding.name).any (· == n) =
          (others.map Binding.name).any (· == n) := by
      rw [hNames]
    simpa only [List.any_map, Function.comp_def] using hBoth
  unfold Check.namesOutside
  simp only [Binding.map_name_eq h, hAny]

/- Types are in conflict in both pools or in neither. -/
theorem isSome_typeConflict?_eq
    {T : Twins}
    {p p' : SchemaPool}
    (hPools : SchemaPool.Paired T p p')
    {first first' bound bound' : List Binding}
    (hFirst : List.Forall₂ (Binding.Paired T) first first')
    (hBound : List.Forall₂ (Binding.Paired T) bound bound') :
    (Check.typeConflict? p' first' bound').isSome =
      (Check.typeConflict? p first bound).isSome := by
  unfold Check.typeConflict?
  induction hBound with
  | nil => rfl
  | @cons b b' bound bound' hHead _ ih =>
      simp only [List.findSome?_cons, hHead.name]
      rcases Binding.cases_of_find? hFirst b.name with
        ⟨hNone, hNone'⟩ | ⟨c, c', hSome, hSome', hPaired⟩
      · simp only [hNone, hNone', Option.bind_eq_bind, Option.bind_none]
        exact ih
      · simp only [hSome, hSome', Option.bind_eq_bind, Option.bind_some,
          hPools.compat_eq hHead.schema hPaired.schema]
        cases p.compat b.schema c.schema with
        | exact => exact ih
        | numeric => exact ih
        | deferred => rfl
        | incompatible => rfl

namespace Alike

variable {ctx : CheckContext}
variable {P : Pairing ctx}
variable {T : Twins}
variable {id id' : SchemaId}

theorem bindName
    (x : String)
    (hId : T.Rel id id')
    (span : Span) :
    Alike P T (Check.bind x id span) (Check.bind x id' span)
      fun _ _ _ => True := by
  refine current.bind fun T₁ s s' hGrows hs => ?_
  dsimp only
  rcases Binding.cases_of_find? hs.bindings x with
    ⟨hNone, hNone'⟩ | ⟨b, b', hSome, hSome', -⟩
  · rw [hNone, hNone']
    apply resetBindings
    apply List.rel_append hs.bindings
    exact .cons ⟨rfl, hGrows.rel id id' hId⟩ .nil
  · rw [hSome, hSome']
    exact report _ _

theorem literal
    (span : Span)
    (hId : T.Rel id id')
    (l : Literal) :
    Alike P T (Check.literal ctx span id l) (Check.literal ctx span id' l)
      Checked.SameBare := by
  refine pool.bind fun T₁ p p' hGrows hPools => ?_
  rw [hPools.checkLiteral_eq (hGrows.rel id id' hId)]
  split
  · exact pure rfl
  · exact (typeName id id').bind fun _ _ _ _ _ => reject span _ _

/- The types that are tested for are twins. -/
theorem typeTest
    (span : Span)
    (hId : T.Rel id id')
    {target : DescriptorId}
    (hKnown : P.Known target) :
    Alike P T (Check.typeTest ctx span id target)
      (Check.typeTest ctx span id' target)
      fun T q q' => q'.1.bare = q.1.bare ∧ T.Rel q.2 q'.2 := by
  refine (schemaOf hKnown).bind fun T₁ slot slot' hGrows hSlot => ?_
  refine pool.bind fun T₂ p p' hGrows₂ hPools => ?_
  have hSlot₂ := hGrows₂.rel slot slot' hSlot
  have hId₂ := (hGrows.trans hGrows₂).rel id id' hId
  rw [hPools.compat_eq hSlot₂ hId₂]
  split
  · exact pure ⟨rfl, hSlot₂⟩
  · exact pure ⟨rfl, hSlot₂⟩
  · refine (schema hSlot₂).bind fun T₃ s s' hGrows₃ hSame => ?_
    rw [hSame.1]
    exact pure ⟨rfl, hGrows₃.rel slot slot' hSlot₂⟩
  · refine (typeName id id').bind fun T₃ _ _ hGrows₃ _ => ?_
    refine (typeName slot slot').bind fun T₄ _ _ hGrows₄ _ => ?_
    refine (reject span _ _).bind fun T₅ q q' hGrows₅ hSame => pure ?_
    have hAll := hGrows₃.trans (hGrows₄.trans hGrows₅)
    exact ⟨hSame, hAll.rel slot slot' hSlot₂⟩

theorem setMembers
    (span : Span)
    {element : SchemaId}
    (hElement : element < T.old)
    (numbered : Bool)
    (ls : List Literal) :
    Alike P T (Check.setMembers ctx span element numbered ls)
      (Check.setMembers ctx span element numbered ls)
      fun _ ms ms' => ms' = ms := by
  induction ls generalizing T with
  | nil => exact pure rfl
  | cons l ls ih =>
      refine pool.bind fun T₁ p p' hGrows hPools => ?_
      have hElement₁ := hElement.trans_le hGrows.old_le
      rw [hPools.checkLiteral_eq (T₁.own element hElement₁)]
      split
      · refine (ih hElement₁).bind fun _ ms ms' _ hSame => ?_
        rw [hSame]
        exact pure rfl
      · refine (typeName element element).bind fun T₂ _ _ hGrows₂ _ => ?_
        refine (report _ _).bind fun T₃ _ _ hGrows₃ _ => ?_
        exact ih (hElement₁.trans_le
          (hGrows₂.old_le.trans hGrows₃.old_le))

theorem setPattern
    (span : Span)
    (hId : T.Rel id id')
    (ls : List Literal)
    (exact : Bool) :
    Alike P T (Check.setPattern ctx span id ls exact)
      (Check.setPattern ctx span id' ls exact) Checked.SameBare := by
  refine (schema hId).bind fun T₁ s s' _ hSame => ?_
  rcases hSame with ⟨rfl, hWithin⟩
  split
  · rename_i element hKind hElement
    have hLt := hWithin.element element hElement
    refine pool.bind fun T₂ p p' hGrows hPools => ?_
    have hLt₂ := hLt.trans_le hGrows.old_le
    dsimp only
    rw [hPools.ordinalDomain_eq (T₂.own element hLt₂)]
    refine (setMembers span hLt₂ _ ls).bind fun _ ms ms' _ hMembers => ?_
    rw [hMembers]
    exact pure rfl
  · exact reject span _ _

theorem compareAlternative
    {first first' bound bound' : List Binding}
    (hFirst : List.Forall₂ (Binding.Paired T) first first')
    (hBound : List.Forall₂ (Binding.Paired T) bound bound')
    (span : Span) :
    Alike P T (Check.compareAlternative first bound span)
      (Check.compareAlternative first' bound' span)
      fun _ _ _ => True := by
  unfold Check.compareAlternative
  dsimp only
  rw [namesOutside_eq hFirst hBound, namesOutside_eq hBound hFirst]
  split
  · refine pool.bind fun T₁ p p' hGrows hPools => ?_
    have hSame := isSome_typeConflict?_eq hPools
      (Binding.forall₂_mono hFirst hGrows)
      (Binding.forall₂_mono hBound hGrows)
    cases hLeft : Check.typeConflict? p first bound with
    | none =>
        rw [hLeft, Option.isSome_none, Option.isSome_eq_false_iff,
          Option.isNone_iff_eq_none] at hSame
        rw [hSame]
        exact pure trivial
    | some problem =>
        rw [hLeft, Option.isSome_some] at hSame
        rcases Option.isSome_iff_exists.mp hSame with ⟨problem', hRight⟩
        rw [hRight]
        exact report _ _
  · exact report _ _

theorem guardNames
    (span : Span)
    (g : Guard) :
    Alike P T (Check.guardNames span g) (Check.guardNames span g)
      fun _ _ _ => True := by
  refine current.bind fun _ s s' _ hs => ?_
  dsimp only
  rw [Binding.map_name_eq hs.bindings]
  split
  · exact report _ _
  · exact pure trivial

theorem pinBoth
    {t t' : Schema}
    (hTarget : t.LooksLike t')
    (field : FieldName)
    (fromCase : Option (List Member))
    {q q' : Checked}
    (hSame : q'.bare = q.bare) :
    Alike P T (Check.pinBoth t field fromCase q)
      (Check.pinBoth t' field fromCase q')
      fun _ pinned pinned' => pinned' = pinned := by
  have hLabels : q'.labels t' = q.labels t := by
    rw [Checked.labels_eq hTarget, ← Checked.labels_bare q', hSame,
      Checked.labels_bare]
  unfold Check.pinBoth
  rw [hLabels]
  split
  · exact pure rfl
  · exact pure rfl
  · dsimp only
    split
    · exact (report _ _).bind fun _ _ _ _ _ => pure rfl
    · exact pure rfl

theorem slotDefaults
    {element : SchemaId}
    (hElement : element < T.old)
    (es : List (SeqElement Pattern)) :
    Alike P T (Check.slotDefaults ctx element es)
      (Check.slotDefaults ctx element es) fun _ _ _ => True := by
  induction es generalizing T with
  | nil => exact pure trivial
  | cons e es ih =>
      match e with
      | .spread _ _ => exact ih hElement
      | .item p none => exact ih hElement
      | .item p (some l) =>
          refine pool.bind fun T₁ p p' hGrows hPools => ?_
          have hElement₁ := hElement.trans_le hGrows.old_le
          rw [hPools.checkLiteral_eq (T₁.own element hElement₁)]
          split
          · exact ih hElement₁
          · refine (typeName element element).bind
              fun T₂ _ _ hGrows₂ _ => ?_
            refine (report _ _).bind fun T₃ _ _ hGrows₃ _ => ?_
            exact ih (hElement₁.trans_le
              (hGrows₂.old_le.trans hGrows₃.old_le))

end Alike

end MatchCompiler

------------------------------------------------------------
-- Constructor Heads
------------------------------------------------------------

namespace MatchCompiler

/- Heads that mean twins. -/
structure ResolvedHead.Paired
    (T : Twins)
    (h h' : ResolvedHead) : Prop where
  target : T.Rel h.target h'.target
  runtimeType : h'.runtimeType = h.runtimeType
  caseName : h'.caseName = h.caseName

/- A head is resolved in both runs or in neither. -/
theorem Alike.head
    {ctx : CheckContext}
    {P : Pairing ctx}
    {T : Twins}
    {id id' : SchemaId}
    (span : Span)
    (hId : T.Rel id id')
    {h : ConstructorHead}
    (hKnown : ∀ target ∈ h.target, P.Known target) :
    Alike P T (Check.head ctx span id h) (Check.head ctx span id' h)
      fun T => BothOk (ResolvedHead.Paired T) := by
  unfold Check.head
  dsimp only
  split
  · exact pure (.ok ⟨hId, rfl, rfl⟩)
  · rename_i name target? hName
    refine pool.bind fun T₁ p p' hGrows hPools => ?_
    have hId₁ := hGrows.rel id id' hId
    rw [hPools.names_eq hId₁]
    split
    · exact pure (.ok ⟨hId₁, rfl, rfl⟩)
    · split
      · rename_i target hTarget
        refine (schemaOf (hKnown target hTarget)).bind
          fun T₂ slot slot' hGrows₂ hSlot => ?_
        refine pool.bind fun T₃ p₃ p₃' hGrows₃ hPools₃ => ?_
        have hSlot₃ := hGrows₃.rel slot slot' hSlot
        have hId₃ := (hGrows₂.trans hGrows₃).rel id id' hId₁
        rw [hPools₃.compat_eq hSlot₃ hId₃]
        split
        · exact pure (.ok ⟨hSlot₃, rfl, rfl⟩)
        · refine (schema hSlot₃).bind fun T₄ s s' hGrows₄ hSame => ?_
          rw [hSame.1]
          exact pure (.ok ⟨hGrows₄.rel slot slot' hSlot₃, rfl, rfl⟩)
        · refine (typeName id id').bind fun _ _ _ _ _ => ?_
          exact pure (.error _ _)
      · refine (schema hId₁).bind fun T₂ s s' hGrows₂ hSame => ?_
        rw [hSame.1]
        split
        · exact pure (.ok ⟨hGrows₂.rel id id' hId₁, rfl, rfl⟩)
        · exact pool.bind fun _ _ _ _ _ => pure (.error _ _)

end MatchCompiler
