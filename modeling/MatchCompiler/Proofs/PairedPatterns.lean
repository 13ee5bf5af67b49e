import MatchCompiler.Proofs.KeptParts
import MatchCompiler.Proofs.PairedChecks

/-
  This file checks a pattern twice, against twins in states
  that look alike.

  Both runs go the same way through the pattern if all types
  that it names are known to the registries. They report as
  many problems and come to patterns that differ in slots at
  most. A constructor pattern whose head means schemas that
  only look alike is checked alike as well.

  Key definitions include:
    * `Pattern.ChecksAlike`
    * `Pattern.checkObject`
    * `Pattern.NamesType`

  Key theorems include:
    * `Pattern.checkObject_alike`
    * `Pattern.checksAlike`
    * `Registry.bothOk_checkArm`
-/

------------------------------------------------------------
-- Parts Of Patterns
------------------------------------------------------------

namespace MatchCompiler

namespace Pattern

/-
  A pattern that is checked against twins comes to patterns
  that differ in slots at most.
-/
def ChecksAlike
    {ctx : CheckContext}
    (P : Pairing ctx)
    (p : Pattern) : Prop :=
  ∀ (T : Twins) (id id' : SchemaId), T.Rel id id' →
    Alike P T (p.check ctx id) (p.check ctx id') Checked.SameBare

/- The parts of patterns with labels differ in slots at most. -/
def SameParts
    {α : Type}
    (_ : Twins)
    (qs qs' : List (α × Checked)) : Prop :=
  qs'.map (Prod.map id Checked.bare) = qs.map (Prod.map id Checked.bare)

variable {ctx : CheckContext}
variable {P : Pairing ctx}
variable {T : Twins}

theorem SameParts.cons
    {α : Type}
    (label : α)
    {q q' : Checked}
    {qs qs' : List (α × Checked)}
    (hHead : q'.bare = q.bare)
    (hTail : SameParts T qs qs') :
    SameParts T ((label, q) :: qs) ((label, q') :: qs') := by
  unfold SameParts at hTail ⊢
  rw [List.map_cons, List.map_cons, hTail]
  simp only [Prod.map_apply, hHead]

theorem SameParts.append
    {α : Type}
    {qs qs' rs rs' : List (α × Checked)}
    (h : SameParts T qs qs')
    (h' : SameParts T rs rs') :
    SameParts T (qs ++ rs) (qs' ++ rs') := by
  unfold SameParts at h h' ⊢
  rw [List.map_append, List.map_append, h, h']

/- Related lists, or none. -/
theorem forall₂_getD
    {α β : Type}
    {R : α → β → Prop}
    {xs : Option (List α)}
    {ys : Option (List β)}
    (h : Option.Rel (List.Forall₂ R) xs ys) :
    List.Forall₂ R (xs.getD []) (ys.getD []) := by
  cases h with
  | none => exact .nil
  | some h => exact h

/- Branches bind twins, each from the names bound before. -/
theorem checkBranches_alike
    {id id' : SchemaId}
    (hId : T.Rel id id')
    {before before' : List Binding}
    (hBefore : List.Forall₂ (Binding.Paired T) before before')
    {first first' : Option (List Binding)}
    (hFirst : Option.Rel (List.Forall₂ (Binding.Paired T)) first first')
    {ps : List Pattern}
    (h : ∀ p ∈ ps, ChecksAlike P p) :
    Alike P T (checkBranches ctx id before first ps)
      (checkBranches ctx id' before' first' ps)
      fun T r r' => r'.1.map Checked.bare = r.1.map Checked.bare ∧
        Option.Rel (List.Forall₂ (Binding.Paired T)) r.2 r'.2 := by
  induction ps generalizing T first first' with
  | nil => exact Alike.pure ⟨rfl, hFirst⟩
  | cons p ps ih =>
      rcases List.forall_mem_cons.mp h with ⟨hHead, hTail⟩
      refine (Alike.resetBindings hBefore).bind
        fun T₁ _ _ hGrows₁ _ => ?_
      refine (hHead T₁ id id' (hGrows₁.rel id id' hId)).bind
        fun T₂ q q' hGrows₂ hSame => ?_
      refine Alike.current.bind fun T₃ s s' hGrows₃ hs => ?_
      have hGrows := hGrows₁.trans (hGrows₂.trans hGrows₃)
      have hBound :
          List.Forall₂ (Binding.Paired T₃)
            (s.bindings.drop before.length)
            (s'.bindings.drop before'.length) := by
        rw [← hBefore.length_eq]
        exact List.forall₂_drop before.length hs.bindings
      -- Whether or not there is a first branch, there is one now.
      have hRest :
          ∀ {T' : Twins} {bs bs' : List Binding}, T₃.Grows T' →
            List.Forall₂ (Binding.Paired T') bs bs' →
            Alike P T'
              (do
                let r ← checkBranches ctx id before (some bs) ps
                return (q :: r.1, r.2))
              (do
                let r ← checkBranches ctx id' before' (some bs') ps
                return (q' :: r.1, r.2))
              fun T r r' =>
                r'.1.map Checked.bare = r.1.map Checked.bare ∧
                Option.Rel (List.Forall₂ (Binding.Paired T)) r.2 r'.2 := by
        intro T' bs bs' hLater hbs
        have hAll := hGrows.trans hLater
        refine (ih (hAll.rel id id' hId)
          (Binding.forall₂_mono hBefore hAll) (.some hbs) hTail).bind
          fun T₄ r r' _ hr => Alike.pure ⟨?_, hr.2⟩
        rw [List.map_cons, List.map_cons, hr.1, hSame]
      dsimp only
      cases hFirst with
      | none => exact hRest .refl hBound
      | some hReference =>
          have hReference₃ := Binding.forall₂_mono hReference hGrows
          refine (Alike.compareAlternative hReference₃ hBound p.span).bind
            fun T₄ _ _ hGrows₄ _ => ?_
          exact hRest hGrows₄ (Binding.forall₂_mono hReference₃ hGrows₄)

theorem checkField_alike
    {d : Discriminator}
    (hd : d.schema < T.old)
    {fs : List (FieldName × Pattern)}
    (h : ∀ f ∈ fs, ChecksAlike P f.2) :
    Alike P T (checkField ctx d fs) (checkField ctx d fs)
      fun _ => Option.Rel fun f f' =>
        f'.1 = f.1 ∧ f'.2.bare = f.2.bare := by
  induction fs with
  | nil => exact Alike.pure .none
  | cons f fs ih =>
      rcases List.forall_mem_cons.mp h with ⟨hHead, hTail⟩
      unfold checkField
      split
      · refine (hHead T d.schema d.schema (T.own _ hd)).bind
          fun _ q q' _ hSame => ?_
        exact Alike.pure (.some ⟨rfl, hSame⟩)
      · exact ih hTail

theorem checkFields_alike
    {t t' : Schema}
    (hTarget : t.LooksLike t')
    (hWithin : t.Within T.old)
    (pinned : Option (List Member))
    {fs : List (FieldName × Pattern)}
    (h : ∀ f ∈ fs, ChecksAlike P f.2) :
    Alike P T (checkFields ctx t pinned fs) (checkFields ctx t' pinned fs)
      SameParts := by
  induction fs generalizing T with
  | nil => exact Alike.pure rfl
  | cons f fs ih =>
      rcases List.forall_mem_cons.mp h with ⟨hHead, hTail⟩
      have hReadable := hTarget.readable pinned f.1.name f.1.span
      have hField :
          ∀ g, t.readable pinned f.1.name f.1.span = .ok (some g) →
            g.schema < T.old :=
        fun _ hRead => hWithin.readable hRead
      unfold checkFields
      rw [hTarget.isDiscriminator]
      split
      · exact ih hWithin hTail
      · generalize t.readable pinned f.1.name f.1.span = r at *
        generalize t'.readable pinned f.1.name f.1.span = r' at *
        cases hReadable with
        | error e e' =>
            refine (Alike.report e e').bind fun T₁ _ _ hGrows _ => ?_
            exact ih (hWithin.mono hGrows.old_le) hTail
        | @ok field? field?' hSame =>
            cases hSame
            cases field? with
            | none => exact ih hWithin hTail
            | some g =>
                have hOwn := T.own g.schema (hField g rfl)
                refine (hHead T g.schema g.schema hOwn).bind
                  fun T₁ q q' hGrows hBare => ?_
                refine (ih (hWithin.mono hGrows.old_le) hTail).bind
                  fun _ qs qs' _ hRest => ?_
                exact Alike.pure (.cons _ hBare hRest)

theorem checkArgs_alike
    {ps : List Pattern}
    (h : ∀ p ∈ ps, ChecksAlike P p)
    {fs : List Field}
    (hFields : ∀ f ∈ fs, f.schema < T.old) :
    Alike P T (checkArgs ctx ps fs) (checkArgs ctx ps fs) SameParts := by
  induction ps generalizing T fs with
  | nil => exact Alike.pure rfl
  | cons p ps ih =>
      rcases List.forall_mem_cons.mp h with ⟨hHead, hTail⟩
      cases fs with
      | nil => exact Alike.pure rfl
      | cons f fs =>
          rcases List.forall_mem_cons.mp hFields with ⟨hf, hRest⟩
          refine (hHead T f.schema f.schema (T.own _ hf)).bind
            fun T₁ q q' hGrows hSame => ?_
          refine (ih hTail fun g hg =>
            (hRest g hg).trans_le hGrows.old_le).bind
            fun _ qs qs' _ hSameTail => ?_
          exact Alike.pure (.cons _ hSame hSameTail)

theorem checkItems_alike
    {element : SchemaId}
    (hElement : element < T.old)
    {es : List (SeqElement Pattern)}
    (h : ∀ e ∈ es, ∀ p ∈ e.pattern?, ChecksAlike P p) :
    Alike P T (checkItems ctx element es) (checkItems ctx element es)
      fun _ qs qs' => qs'.map Checked.bare = qs.map Checked.bare := by
  induction es generalizing T with
  | nil => exact Alike.pure rfl
  | cons e es ih =>
      rcases List.forall_mem_cons.mp h with ⟨hHead, hTail⟩
      cases e with
      | spread q span => exact ih hElement hTail
      | item p d =>
          have hOwn := T.own element hElement
          refine (hHead p rfl T element element hOwn).bind
            fun T₁ q q' hGrows hSame => ?_
          refine (ih (hElement.trans_le hGrows.old_le) hTail).bind
            fun _ qs qs' _ hSameTail => Alike.pure ?_
          rw [List.map_cons, List.map_cons, hSame, hSameTail]

theorem checkSpread_alike
    {element : SchemaId}
    (hElement : element < T.old)
    {es : List (SeqElement Pattern)}
    (h : ∀ e ∈ es, ∀ p ∈ e.pattern?, ChecksAlike P p) :
    Alike P T (checkSpread ctx element es) (checkSpread ctx element es)
      fun _ q q' => q'.map Checked.bare = q.map Checked.bare := by
  induction es with
  | nil => exact Alike.pure rfl
  | cons e es ih =>
      rcases List.forall_mem_cons.mp h with ⟨hHead, hTail⟩
      match e, hHead with
      | .item _ _, _ => exact ih hTail
      | .spread none _, _ => exact ih hTail
      | .spread (some p) _, hHead =>
          refine (Alike.sequenceOf hElement).bind
            fun T₁ slot slot' _ hSlot => ?_
          refine (hHead p rfl T₁ slot slot' hSlot).bind
            fun _ q q' _ hSame => ?_
          exact Alike.pure (congrArg some hSame)

theorem checkTuple_alike
    {es : List (SeqElement Pattern)}
    (h : ∀ e ∈ es, ∀ p ∈ e.pattern?, ChecksAlike P p)
    {fs : List Field}
    (hFields : ∀ f ∈ fs, f.schema < T.old) :
    Alike P T (checkTuple ctx es fs) (checkTuple ctx es fs)
      SameParts := by
  induction es generalizing T fs with
  | nil => exact Alike.pure rfl
  | cons e es ih =>
      rcases List.forall_mem_cons.mp h with ⟨hHead, hTail⟩
      cases fs with
      | nil => cases e <;> exact Alike.pure rfl
      | cons f fs =>
          rcases List.forall_mem_cons.mp hFields with ⟨hf, hRest⟩
          cases e with
          | spread q span => exact ih hTail hRest
          | item p d =>
              have hOwn := T.own f.schema hf
              refine (hHead p rfl T f.schema f.schema hOwn).bind
                fun T₁ q q' hGrows hSame => ?_
              refine (ih hTail fun g hg =>
                (hRest g hg).trans_le hGrows.old_le).bind
                fun _ qs qs' _ hSameTail => ?_
              exact Alike.pure (.cons _ hSame hSameTail)

theorem checkEntries_alike
    {key value : SchemaId}
    (hKey : key < T.old)
    (hValue : value < T.old)
    {es : List (Literal × Pattern)}
    (h : ∀ e ∈ es, ChecksAlike P e.2) :
    Alike P T (checkEntries ctx key value es)
      (checkEntries ctx key value es) SameParts := by
  induction es generalizing T with
  | nil => exact Alike.pure rfl
  | cons e es ih =>
      rcases List.forall_mem_cons.mp h with ⟨hHead, hTail⟩
      refine Alike.pool.bind fun T₁ p p' hGrows hPools => ?_
      have hKey₁ := hKey.trans_le hGrows.old_le
      have hValue₁ := hValue.trans_le hGrows.old_le
      rw [hPools.checkLiteral_eq (T₁.own key hKey₁)]
      split
      · refine (hHead T₁ value value (T₁.own value hValue₁)).bind
          fun T₂ q q' hGrows₂ hSame => ?_
        refine (ih (hKey₁.trans_le hGrows₂.old_le)
          (hValue₁.trans_le hGrows₂.old_le) hTail).bind
          fun _ qs qs' _ hSameTail => ?_
        exact Alike.pure (.cons _ hSame hSameTail)
      · refine (Alike.typeName key key).bind fun T₂ _ _ hGrows₂ _ => ?_
        refine (Alike.report _ _).bind fun T₃ _ _ hGrows₃ _ => ?_
        have hLe := hGrows₂.old_le.trans hGrows₃.old_le
        exact ih (hKey₁.trans_le hLe) (hValue₁.trans_le hLe) hTail

theorem checkOptional_alike
    (span : Span)
    {s : Schema}
    (hs : s.Within T.old)
    (h : ConstructorHead)
    (count : Nat)
    {ps : List Pattern}
    (hArgs : ∀ p ∈ ps, ChecksAlike P p) :
    Alike P T (checkOptional ctx span s h count ps)
      (checkOptional ctx span s h count ps) Checked.SameBare := by
  unfold checkOptional
  split
  · rename_i p
    split
    · cases hElement : s.element with
      | none => exact Alike.pure rfl
      | some element =>
          have hOwn := T.own element (hs.element element hElement)
          refine (hArgs p List.mem_cons_self T element element hOwn).bind
            fun _ q q' _ hSame => Alike.pure ?_
          exact congrArg (Checked.some span) hSame
    · exact Alike.reject span _ _
  · dsimp only
    split
    · exact Alike.pure rfl
    · exact Alike.reject span _ _

end Pattern

end MatchCompiler

------------------------------------------------------------
-- Objects
------------------------------------------------------------

namespace MatchCompiler

namespace Pattern

/-
  Check a constructor pattern over an object, given what its
  head means and the schema of its fields.
-/
def checkObject
    (ctx : CheckContext)
    (span : Span)
    (nilCheck : Bool)
    (resolved : ResolvedHead)
    (target : Schema)
    (fields : List (FieldName × Pattern))
    (args : List Pattern) : Check Checked := do
  match resolved.caseName.mapM
      (fun c => target.pinCase ctx.marker c span) with
  | .error problem => Check.reject span problem
  | .ok fromCase =>
      let disc ←
        match target.discriminator with
        | none => pure none
        | some d => checkField ctx d fields
      let pinned ←
        match disc with
        | none => pure fromCase
        | some (name, p) => Check.pinBoth target name fromCase p
      let read := disc.map fun (name, p) =>
        let position :=
          ((target.field? name.name).map Field.position).getD 0
        (({ name := name.name, position } : FieldRead), p)
      let named ← checkFields ctx target pinned fields
      let positional := target.positionalFields pinned
      if positional.length < args.length then
        Check.report
          (.tooManyArguments span target.displayName
            positional.length args.length)
      let unnamed ← checkArgs ctx args positional
      let pin := fromCase.map fun labels =>
        ({ discriminator := target.discriminatorName, labels } : Pin)
      let head : ObjectHead :=
        { schema := resolved.target
          nilCheck
          runtimeType := resolved.runtimeType
          pin }
      return .object span head (read.toList ++ named ++ unnamed)

/- The pattern of a discriminator differs in slots at most. -/
def SameField :
    Option (FieldName × Checked) → Option (FieldName × Checked) → Prop :=
  Option.Rel fun f f' => f'.1 = f.1 ∧ f'.2.bare = f.2.bare

variable {ctx : CheckContext}
variable {P : Pairing ctx}
variable {T : Twins}
variable {α : Type}
variable {post : Twins → α → α → Prop}
variable {t t' : Schema}

/- The discriminator's pattern is checked, if there is one. -/
theorem discriminator_alike
    (hTarget : t.LooksLike t')
    (hWithin : t.Within T.old)
    {fs : List (FieldName × Pattern)}
    (h : ∀ f ∈ fs, ChecksAlike P f.2)
    {rest rest' : Option (FieldName × Checked) → Check α}
    (hRest :
      ∀ T' disc disc', T.Grows T' → SameField disc disc' →
        Alike P T' (rest disc) (rest' disc') post) :
    Alike P T
      (match t.discriminator with
        | none => do rest (← pure none)
        | some d => do rest (← checkField ctx d fs))
      (match t'.discriminator with
        | none => do rest' (← pure none)
        | some d => do rest' (← checkField ctx d fs)) post := by
  rw [hTarget.discriminator]
  cases hDisc : t.discriminator with
  | none => exact hRest T none none .refl .none
  | some d =>
      have hLt := hWithin.discriminator d hDisc
      exact (checkField_alike hLt h).bind hRest

/- The branches that are pinned are worked out. -/
theorem pinned_alike
    (hTarget : t.LooksLike t')
    (fromCase : Option (List Member))
    {disc disc' : Option (FieldName × Checked)}
    {rest rest' : Option (List Member) → Check α}
    (hRest :
      ∀ T' pinned, T.Grows T' →
        Alike P T' (rest pinned) (rest' pinned) post) :
    SameField disc disc' →
    Alike P T
      (match disc with
        | none => do rest (← pure fromCase)
        | some (name, q) => do
            rest (← Check.pinBoth t name fromCase q))
      (match disc' with
        | none => do rest' (← pure fromCase)
        | some (name, q) => do
            rest' (← Check.pinBoth t' name fromCase q)) post := by
  intro hDisc
  cases hDisc with
  | none => exact hRest T fromCase .refl
  | @some d d' hSame =>
      dsimp only
      rw [hSame.1]
      refine (Alike.pinBoth hTarget d.1 fromCase hSame.2).bind
        fun T₁ pinned pinned' hGrows hPinned => ?_
      rw [hPinned]
      exact hRest T₁ pinned hGrows

/- The other fields and the arguments are checked. -/
theorem fieldsAndArgs_alike
    (hTarget : t.LooksLike t')
    (hWithin : t.Within T.old)
    (pinned : Option (List Member))
    {fs : List (FieldName × Pattern)}
    {ps : List Pattern}
    (hFields : ∀ f ∈ fs, ChecksAlike P f.2)
    (hArgs : ∀ p ∈ ps, ChecksAlike P p)
    (problem problem' : Problem)
    {build build' :
      List (FieldRead × Checked) → List (FieldRead × Checked) → Checked}
    {post : Twins → Checked → Checked → Prop}
    (hBuild :
      ∀ T' named named' unnamed unnamed',
        SameParts T' named named' → SameParts T' unnamed unnamed' →
        post T' (build named unnamed) (build' named' unnamed')) :
    Alike P T
      (do
        let named ← checkFields ctx t pinned fs
        if (t.positionalFields pinned).length < ps.length then
          Check.report problem
        let unnamed ← checkArgs ctx ps (t.positionalFields pinned)
        return build named unnamed)
      (do
        let named ← checkFields ctx t' pinned fs
        if (t'.positionalFields pinned).length < ps.length then
          Check.report problem'
        let unnamed ← checkArgs ctx ps (t'.positionalFields pinned)
        return build' named unnamed) post := by
  rw [hTarget.positionalFields]
  refine (checkFields_alike hTarget hWithin pinned hFields).bind
    fun T₁ named named' hGrows hNamed => ?_
  have hUnnamed :
      ∀ {T' : Twins}, T₁.Grows T' →
        Alike P T'
          (do
            let unnamed ← checkArgs ctx ps (t.positionalFields pinned)
            return build named unnamed)
          (do
            let unnamed ← checkArgs ctx ps (t.positionalFields pinned)
            return build' named' unnamed) post := by
    intro T' hLater
    have hOwn := hWithin.mono (hGrows.trans hLater).old_le
    refine (checkArgs_alike hArgs (hOwn.positionalFields pinned)).bind
      fun T₂ unnamed unnamed' _ hSame => Alike.pure ?_
    exact hBuild T₂ named named' unnamed unnamed' hNamed hSame
  dsimp only
  split
  · exact (Alike.report problem problem').bind
      fun _ _ _ hLater _ => hUnnamed hLater
  · exact hUnnamed .refl

/- The discriminator is read from the same place. -/
theorem sameParts_read
    (hTarget : t.LooksLike t')
    {disc disc' : Option (FieldName × Checked)}
    (hDisc : SameField disc disc') :
    SameParts T
      (disc.map fun f =>
        (({ name := f.1.name
            position :=
              ((t.field? f.1.name).map Field.position).getD 0 } :
          FieldRead), f.2)).toList
      (disc'.map fun f =>
        (({ name := f.1.name
            position :=
              ((t'.field? f.1.name).map Field.position).getD 0 } :
          FieldRead), f.2)).toList := by
  cases hDisc with
  | none => rfl
  | @some d d' hSame =>
      simp only [Option.map_some, Option.toList_some, hSame.1,
        Schema.field?, hTarget.fields]
      exact .cons _ hSame.2 rfl

/-
  Schemas that look alike are taken apart alike. The patterns
  differ in slots at most if the tests at run time are the
  same.
-/
theorem checkObject_alike
    (span : Span)
    (nilCheck : Bool)
    {resolved resolved' : ResolvedHead}
    (hCase : resolved'.caseName = resolved.caseName)
    (hTarget : t.LooksLike t')
    (hWithin : t.Within T.old)
    {fs : List (FieldName × Pattern)}
    {ps : List Pattern}
    (hFields : ∀ f ∈ fs, ChecksAlike P f.2)
    (hArgs : ∀ p ∈ ps, ChecksAlike P p) :
    Alike P T (checkObject ctx span nilCheck resolved t fs ps)
      (checkObject ctx span nilCheck resolved' t' fs ps)
      fun _ q q' =>
        resolved'.runtimeType = resolved.runtimeType →
        q'.bare = q.bare := by
  have hPins :=
    hTarget.mapM_pinCase ctx.marker resolved.caseName span
  unfold checkObject
  rw [hCase]
  generalize
    (resolved.caseName.mapM fun c => t.pinCase ctx.marker c span) = r
    at hPins ⊢
  generalize
    (resolved.caseName.mapM fun c => t'.pinCase ctx.marker c span) = r'
    at hPins ⊢
  cases hPins with
  | error e e' =>
      exact (Alike.reject span e e').mono fun _ _ _ hSame _ => hSame
  | @ok fromCase fromCase' hSame =>
      rcases hSame with ⟨rfl, hUnion⟩
      dsimp only
      refine discriminator_alike hTarget hWithin hFields
        fun T₁ disc disc' hGrows₁ hDisc => ?_
      refine pinned_alike hTarget fromCase'
        (fun T₂ pinned hGrows₂ => ?_) hDisc
      have hOwn := hWithin.mono (hGrows₁.trans hGrows₂).old_le
      refine fieldsAndArgs_alike hTarget hOwn pinned hFields hArgs _ _
        fun T₃ named named' unnamed unnamed' hNamed hUnnamed hType => ?_
      have hPin :
          (fromCase'.map fun labels =>
            ({ discriminator := t'.discriminatorName, labels } : Pin)) =
          fromCase'.map fun labels =>
            ({ discriminator := t.discriminatorName, labels } : Pin) := by
        cases fromCase' with
        | none => rfl
        | some labels =>
            simp only [Option.map_some,
              hTarget.discriminatorName (hUnion rfl)]
      have hRead : SameParts T₃ _ _ := sameParts_read hTarget hDisc
      have hAll := (hRead.append hNamed).append hUnnamed
      simp only [Checked.bare, Checked.bareFields_eq, hType, hPin]
      exact congrArg (Checked.object span _) hAll

end Pattern

end MatchCompiler

------------------------------------------------------------
-- Patterns And Arms
------------------------------------------------------------

namespace MatchCompiler

namespace Pattern

/- A type that a pattern names by itself or by a part. -/
inductive NamesType
    (id : DescriptorId) : Pattern → Prop
| typeTest
    (span : Span) :
    NamesType id (.typeTest span id)
| narrow
    (span : Span)
    (x : String) :
    NamesType id (.narrow span x id)
| constructor
    (span : Span)
    {h : ConstructorHead}
    (fields : List (FieldName × Pattern))
    (args : List Pattern)
    (hTarget : h.target = some id) :
    NamesType id (.constructor span h fields args)
| part
    {p q : Pattern}
    (hPart : p.PartOf q)
    (hNames : NamesType id p) :
    NamesType id q

variable {ctx : CheckContext}
variable {P : Pairing ctx}

/- An alternation is checked alike if its branches are. -/
theorem alt_alike
    (span : Span)
    {ps : List Pattern}
    (hBranches : ∀ p ∈ ps, ChecksAlike P p) :
    ChecksAlike P (.alt span ps) := by
  intro T id id' hId
  refine Alike.current.bind fun T₁ s s' hGrows hs => ?_
  refine (checkBranches_alike (hGrows.rel id id' hId) hs.bindings
    .none hBranches).bind fun T₂ r r' hGrows₂ hr => ?_
  have hFirst := forall₂_getD hr.2
  have hBefore := Binding.forall₂_mono hs.bindings hGrows₂
  refine (Alike.resetBindings (List.rel_append hBefore hFirst)).bind
    fun _ _ _ _ _ => Alike.pure ?_
  simp only [Checked.SameBare, Checked.bare, Checked.bareAll_eq, hr.1]

/- A constructor is checked alike if its parts are. -/
theorem constructor_alike
    (span : Span)
    {h : ConstructorHead}
    (hHead : ∀ target ∈ h.target, P.Known target)
    {fs : List (FieldName × Pattern)}
    (hFields : ∀ f ∈ fs, ChecksAlike P f.2)
    {ps : List Pattern}
    (hArgs : ∀ p ∈ ps, ChecksAlike P p) :
    ChecksAlike P (.constructor span h fs ps) := by
  intro T id id' hId
  refine (Alike.schema hId).bind fun T₁ s s' hGrows hSame => ?_
  rcases hSame with ⟨rfl, hWithin⟩
  dsimp only
  split
  · exact checkOptional_alike span hWithin h fs.length hArgs
  -- Records and unions are checked alike.
  iterate 2
    · refine (Alike.head span (hGrows.rel id id' hId) hHead).bind
        fun T₂ r r' _ hHeads => ?_
      cases hHeads with
      | error e e' => exact Alike.reject span e e'
      | @ok resolved resolved' hPaired =>
          refine (Alike.schema hPaired.target).bind
            fun T₃ t t' _ hTarget => ?_
          rcases hTarget with ⟨rfl, hOwn⟩
          refine (checkObject_alike span s'.isReference
            hPaired.caseName (.refl t') hOwn hFields hArgs).mono
            fun _ q q' hBare => ?_
          exact hBare hPaired.runtimeType
  · exact Alike.reject span _ _
  · exact Alike.reject span _ _

/- A sequence pattern is checked alike if its elements are. -/
theorem seq_alike
    (span : Span)
    {es : List (SeqElement Pattern)}
    (hElements : ∀ e ∈ es, ∀ p ∈ e.pattern?, ChecksAlike P p) :
    ChecksAlike P (.seq span es) := by
  intro T id id' hId
  unfold check
  split
  · exact Alike.reject span _ _
  · refine (Alike.schema hId).bind fun T₁ s s' _ hSame => ?_
    rcases hSame with ⟨rfl, hWithin⟩
    split
    -- Sequences and arrays are checked alike.
    iterate 2
      · rename_i element _ hElement
        have hLt := hWithin.element element hElement
        refine (Alike.slotDefaults hLt es).bind
          fun T₂ _ _ hGrows₂ _ => ?_
        have hLt₂ := hLt.trans_le hGrows₂.old_le
        dsimp only
        split
        · exact Alike.reject span _ _
        · refine (checkItems_alike hLt₂ hElements).bind
            fun T₃ items items' hGrows₃ hItems => ?_
          refine (checkSpread_alike (hLt₂.trans_le hGrows₃.old_le)
            hElements).bind
            fun _ spread spread' _ hSpread => Alike.pure ?_
          simp only [Checked.SameBare, Checked.bare_seq, hItems,
            hSpread]
    · split
      · exact Alike.reject span _ _
      · split
        · exact Alike.reject span _ _
        · refine (checkTuple_alike hElements hWithin.fields).bind
            fun _ items items' _ hItems => Alike.pure ?_
          simp only [Checked.SameBare, Checked.bare,
            Checked.bareItems_eq]
          exact congrArg (Checked.tuple span) hItems
    · exact Alike.reject span _ _
    · exact Alike.reject span _ _

/- A map pattern is checked alike if its entries are. -/
theorem map_alike
    (span : Span)
    {es : List (Literal × Pattern)}
    (hEntries : ∀ e ∈ es, ChecksAlike P e.2) :
    ChecksAlike P (.map span es) := by
  intro T id id' hId
  refine (Alike.schema hId).bind fun T₁ s s' _ hSame => ?_
  rcases hSame with ⟨rfl, hWithin⟩
  split
  · rename_i key value hKey hValue
    refine (checkEntries_alike (hWithin.key key hKey)
      (hWithin.value value hValue) hEntries).bind
      fun _ qs qs' _ hParts => Alike.pure ?_
    simp only [Checked.SameBare, Checked.bare, Checked.bareEntries_eq]
    exact congrArg (Checked.map span) hParts
  · exact Alike.reject span _ _

/-
  A pattern is checked alike against twins if the types that
  it names are known.
-/
theorem checksAlike
    (p : Pattern)
    (hKnown : ∀ target, p.NamesType target → P.Known target) :
    ChecksAlike P p := by
  induction p using partInduction with
  | wildcard span =>
      intro T id id' hId
      exact Alike.pure rfl
  | bind span x =>
      intro T id id' hId
      refine (Alike.bindName x hId span).bind fun _ _ _ _ _ => ?_
      exact Alike.pure rfl
  | named span x p ih =>
      intro T id id' hId
      have hInner := ih fun target hNames =>
        hKnown target (.part (.named span x) hNames)
      refine (hInner T id id' hId).bind fun T₁ q q' hGrows hSame => ?_
      refine (Alike.bindName x (hGrows.rel id id' hId) span).bind
        fun _ _ _ _ _ => Alike.pure ?_
      exact congrArg (Checked.bind span x) hSame
  | literal span l =>
      intro T id id' hId
      exact Alike.literal span hId l
  | alt span ps ih =>
      apply alt_alike span
      intro p hp
      apply ih p hp
      exact fun target hNames =>
        hKnown target (.part (.branch span hp) hNames)
  | guarded span p g ih =>
      intro T id id' hId
      have hInner := ih fun target hNames =>
        hKnown target (.part (.guarded span g) hNames)
      refine (hInner T id id' hId).bind fun T₁ q q' hGrows hSame => ?_
      refine (Alike.guardNames span g).bind
        fun _ _ _ _ _ => Alike.pure ?_
      simp only [Checked.SameBare, Checked.bare]
      rw [hSame]
  | constructor span h fs ps ihFields ihArgs =>
      apply constructor_alike span
      · exact fun target hTarget =>
          hKnown target (.constructor span fs ps hTarget)
      · intro f hf
        apply ihFields f hf
        exact fun target hNames =>
          hKnown target (.part (.field span h ps hf) hNames)
      · intro p hp
        apply ihArgs p hp
        exact fun target hNames =>
          hKnown target (.part (.arg span h fs hp) hNames)
  | seq span es ih =>
      apply seq_alike span
      intro e he p hp
      apply ih e he p hp
      exact fun target hNames =>
        hKnown target (.part (.element span he hp) hNames)
  | typeTest span target =>
      intro T id id' hId
      refine (Alike.typeTest span hId (hKnown target (.typeTest span))).bind
        fun _ q q' _ hSame => ?_
      exact Alike.pure hSame.1
  | narrow span x target =>
      intro T id id' hId
      refine (Alike.typeTest span hId (hKnown target (.narrow span x))).bind
        fun T₁ q q' _ hSame => ?_
      refine (Alike.bindName x hSame.2 span).bind
        fun _ _ _ _ _ => Alike.pure ?_
      exact congrArg (Checked.bind span x) hSame.1
  | map span es ih =>
      apply map_alike span
      intro e he
      apply ih e he
      exact fun target hNames => hKnown target (.part (.entry span he) hNames)
  | set span ls exact =>
      intro T id id' hId
      exact Alike.setPattern span hId ls exact

end Pattern

/- An arm is accepted alike by runs with as many problems. -/
theorem Registry.bothOk_checkArm
    {ctx : CheckContext}
    {r r' : Registry}
    {id id' : SchemaId}
    {p p' : Pattern}
    (h :
      ((p'.check ctx id').run { registry := r' }).2.problems.length =
        ((p.check ctx id).run { registry := r }).2.problems.length) :
    BothOk
      (fun arm arm' =>
        let x := (p.check ctx id).run { registry := r }
        let x' := (p'.check ctx id').run { registry := r' }
        arm = ⟨x.1, x.2.bindings⟩ ∧ arm' = ⟨x'.1, x'.2.bindings⟩)
      (r.checkArm ctx id p).2 (r'.checkArm ctx id' p').2 := by
  unfold checkArm
  generalize (p.check ctx id).run { registry := r } = x at h ⊢
  generalize (p'.check ctx id').run { registry := r' } = x' at h ⊢
  rcases x with ⟨q, s⟩
  rcases x' with ⟨q', s'⟩
  have hEmpty : s'.problems.isEmpty = s.problems.isEmpty := by
    rw [Bool.eq_iff_iff, List.isEmpty_iff, List.isEmpty_iff,
      ← List.length_eq_zero_iff, ← List.length_eq_zero_iff, h]
  dsimp only
  rw [hEmpty]
  split
  · exact .ok ⟨rfl, rfl⟩
  · exact .error _ _

end MatchCompiler
