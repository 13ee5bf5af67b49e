import MatchCompiler.Proofs.Acceptance

/-
  This file shows that checking follows the rules of
  acceptance.

  A step of checking only ever adds problems. What it gives
  is described for the case that it adds none, and steps are
  put together by what they give; a pattern whose check
  reports nothing is then accepted, one part after the other.

  Key definitions include:
    * `Sound`
    * `InTurn`
    * `Pattern.ChecksTo`
    * `Pattern.SoundCheck`

  Key theorems include:
    * `Sound.bind`
    * `Pattern.sound_constructor`
    * `Pattern.sound_positional`
    * `Pattern.sound_check`
    * `accepts_of_checkArm`
-/

------------------------------------------------------------
-- Steps That Report Nothing
------------------------------------------------------------

namespace MatchCompiler

/- A step of checking, and what comes after it. -/
theorem Check.run_step
    {α β : Type}
    (m : Check α)
    (f : α → Check β)
    (s : CheckState) :
    (m >>= f).run s = (f (m.run s).1).run (m.run s).2 :=
  rfl

/-
  A step of checking reports only more problems, and if it
  reports none then its result is as described.
-/
def Sound
    {α : Type}
    (m : Check α)
    (post : Progress → α → Progress → Prop) : Prop :=
  ∀ s, ∃ new,
    (m.run s).2.problems = s.problems ++ new ∧
    (new = [] → post s.progress (m.run s).1 (m.run s).2.progress)

namespace Sound

variable {α β : Type}
variable {post : Progress → α → Progress → Prop}

theorem pure
    {x : α}
    (h : ∀ s, post s x s) :
    Sound (Pure.pure x) post := by
  intro s
  exact ⟨[], (List.append_nil _).symm, fun _ => h s.progress⟩

theorem pure_true
    (x : α) :
    Sound (Pure.pure x) fun _ _ _ => True :=
  pure fun _ => trivial

/- A problem is reported. -/
theorem report
    {post : Progress → Unit → Progress → Prop}
    (p : Problem) :
    Sound (Check.report p) post := by
  intro s
  exact ⟨[p], rfl, nofun⟩

/- A step after a step. -/
theorem bind
    {m : Check α}
    {f : α → Check β}
    {mid : Progress → α → Progress → Prop}
    {post : Progress → β → Progress → Prop}
    (hm : Sound m mid)
    (hf :
      ∀ x, Sound (f x) fun s' y s'' =>
        ∀ s, mid s x s' → post s y s'') :
    Sound (m >>= f) post := by
  intro s
  rcases hm s with ⟨new, hNew, hMid⟩
  rcases hf (m.run s).1 (m.run s).2 with ⟨more, hMore, hPost⟩
  refine ⟨new ++ more, ?_, ?_⟩
  · rw [← List.append_assoc, ← hNew]
    exact hMore
  · intro hNone
    rcases List.append_eq_nil_iff.mp hNone with ⟨hNew, hMore⟩
    exact hPost hMore _ (hMid hNew)

theorem mono
    {m : Check α}
    {pre : Progress → α → Progress → Prop}
    (h : Sound m pre)
    (hImp : ∀ s x s', pre s x s' → post s x s') :
    Sound m post := by
  intro s
  rcases h s with ⟨new, hNew, hPre⟩
  exact ⟨new, hNew, fun hNone => hImp _ _ _ (hPre hNone)⟩

/- Two descriptions of one step hold together. -/
theorem both
    {m : Check α}
    {other : Progress → α → Progress → Prop}
    (h : Sound m post)
    (h' : Sound m other) :
    Sound m fun s x s' => post s x s' ∧ other s x s' := by
  intro s
  rcases h s with ⟨new, hNew, hPost⟩
  rcases h' s with ⟨new', hNew', hOther⟩
  have hSame : new = new' :=
    List.append_cancel_left (hNew.symm.trans hNew')
  subst hSame
  exact ⟨new, hNew, fun hNone => ⟨hPost hNone, hOther hNone⟩⟩

/- A run that adds no problem has the result that is described. -/
theorem of_run
    {m : Check α}
    (h : Sound m post)
    {s s' : CheckState}
    {x : α}
    (hRun : m.run s = (x, s'))
    (hProblems : s'.problems = s.problems) :
    post s.progress x s'.progress := by
  rcases h s with ⟨new, hNew, hPost⟩
  rw [hRun] at hNew hPost
  dsimp only at hNew hPost
  rw [hProblems] at hNew
  exact hPost (List.self_eq_append_right.mp hNew)

/- A step after one that reports problems. -/
theorem after
    {m : Check α}
    {f : α → Check β}
    {mid : Progress → β → Progress → Prop}
    {post : Progress → β → Progress → Prop}
    (hm : Sound m fun _ _ _ => False)
    (hf : ∀ x, Sound (f x) mid) :
    Sound (m >>= f) post :=
  hm.bind fun x => (hf x).mono fun _ _ _ _ _ hFalse => hFalse.elim

/- A node is rejected. -/
theorem reject
    {post : Progress → Checked → Progress → Prop}
    (span : Span)
    (p : Problem) :
    Sound (Check.reject span p) post :=
  (report p).after fun _ => pure_true _

/- The state is looked at. -/
theorem current :
    Sound get fun s (x : CheckState) s' => x.progress = s ∧ s' = s := by
  intro s
  exact ⟨[], (List.append_nil _).symm, fun _ => ⟨rfl, rfl⟩⟩

theorem pool :
    Sound Check.pool fun s p s' => p = s.pool ∧ s' = s := by
  refine current.bind fun x => pure fun s s₀ h => ?_
  rcases h with ⟨rfl, rfl⟩
  exact ⟨rfl, rfl⟩

theorem schema
    (id : SchemaId) :
    Sound (Check.schema id) fun s x s' =>
      x = s.pool.get id ∧ s' = s := by
  refine pool.bind fun p => pure fun s s₀ h => ?_
  rcases h with ⟨rfl, rfl⟩
  exact ⟨rfl, rfl⟩

theorem typeName
    (id : SchemaId) :
    Sound (Check.typeName id) fun s x s' =>
      x = s.pool.nameOf id ∧ s' = s := by
  refine pool.bind fun p => pure fun s s₀ h => ?_
  rcases h with ⟨rfl, rfl⟩
  exact ⟨rfl, rfl⟩

theorem schemaOf
    (ctx : CheckContext)
    (id : DescriptorId) :
    Sound (Check.schemaOf ctx id) fun s slot s' =>
      slot = (s.extract ctx id).2 ∧ s' = (s.extract ctx id).1 := by
  intro s
  exact ⟨[], (List.append_nil _).symm, fun _ => ⟨rfl, rfl⟩⟩

theorem sequenceOf
    (element : SchemaId) :
    Sound (Check.sequenceOf element) fun s slot s' =>
      slot = (s.sequenceOf element).2 ∧
      s' = (s.sequenceOf element).1 := by
  intro s
  exact ⟨[], (List.append_nil _).symm, fun _ => ⟨rfl, rfl⟩⟩

theorem resetBindings
    (bindings : List Binding) :
    Sound (Check.resetBindings bindings) fun s _ s' =>
      s' = { s with bindings } := by
  intro s
  exact ⟨[], (List.append_nil _).symm, fun _ => rfl⟩

end Sound

end MatchCompiler

------------------------------------------------------------
-- Nodes Without Parts
------------------------------------------------------------

namespace MatchCompiler

namespace Sound

variable (ctx : CheckContext)

/- A name is bound once. -/
theorem bindName
    (x : String)
    (id : SchemaId)
    (span : Span) :
    Sound (Check.bind x id span) fun s _ s' =>
      x ∉ s.names ∧ s' = s.add ⟨x, id, span⟩ := by
  refine current.bind fun st => ?_
  dsimp only
  split
  · exact report _
  · rename_i hFind
    refine (resetBindings _).mono fun s _ s' hSet s₀ hState => ?_
    rcases hState with ⟨rfl, rfl⟩
    refine ⟨?_, hSet⟩
    intro hMem
    rcases List.mem_map.mp hMem with ⟨b, hb, rfl⟩
    have hNone := List.find?_eq_none.mp hFind b hb
    exact hNone (beq_self_eq_true b.name)

/- A literal has a meaning. -/
theorem literal
    (span : Span)
    (id : SchemaId)
    (l : Literal) :
    Sound (Check.literal ctx span id l) fun s q s' =>
      Accepts ctx (.literal span l) id s q s' ∧ s' = s := by
  refine pool.bind fun p => ?_
  cases hMeaning : p.checkLiteral ctx.marker id l with
  | ok meaning =>
      refine pure fun s s₀ hPool => ?_
      rcases hPool with ⟨rfl, rfl⟩
      exact ⟨.literal hMeaning, rfl⟩
  | error cause => exact (typeName id).bind fun _ => reject span _

/- A type test is decided, or left to the run. -/
theorem typeTest
    (span : Span)
    (id : SchemaId)
    (target : DescriptorId) :
    Sound (Check.typeTest ctx span id target) fun s q s' =>
      TypeTested ctx span id target s q.1 ∧
      q.2 = (s.extract ctx target).2 ∧
      s' = (s.extract ctx target).1 := by
  refine (schemaOf ctx target).bind fun slot => ?_
  refine pool.bind fun p => ?_
  cases hCompat : p.compat slot id with
  | exact =>
      refine pure fun s s₁ hPool s₀ hSlot => ?_
      rcases hPool with ⟨rfl, rfl⟩
      rcases hSlot with ⟨rfl, rfl⟩
      exact ⟨.holds (.inl hCompat), rfl, rfl⟩
  | numeric =>
      refine pure fun s s₁ hPool s₀ hSlot => ?_
      rcases hPool with ⟨rfl, rfl⟩
      rcases hSlot with ⟨rfl, rfl⟩
      exact ⟨.holds (.inr hCompat), rfl, rfl⟩
  | deferred =>
      refine (schema slot).bind fun t => ?_
      refine pure fun s s₂ hSchema s₁ hPool s₀ hSlot => ?_
      rcases hSchema with ⟨rfl, rfl⟩
      rcases hPool with ⟨rfl, rfl⟩
      rcases hSlot with ⟨rfl, rfl⟩
      exact ⟨.tested hCompat, rfl, rfl⟩
  | incompatible =>
      refine (typeName id).bind fun _ => ?_
      refine (typeName slot).bind fun _ => ?_
      exact (reject span _).after fun _ => pure_true _

/- The members of a set pattern have a meaning. -/
theorem setMembers
    (span : Span)
    (element : SchemaId)
    (numbered : Bool)
    (ls : List Literal) :
    Sound (Check.setMembers ctx span element numbered ls)
      fun s members s' => s' = s ∧
        (numbered = (s.pool.ordinalDomain element).isSome →
          List.Forall₂ (SetMember.MadeFrom s.pool ctx.marker element) ls
            members) := by
  induction ls with
  | nil => exact pure fun _ => ⟨rfl, fun _ => .nil⟩
  | cons l ls ih =>
      refine pool.bind fun p => ?_
      cases hMeaning : p.checkLiteral ctx.marker element l with
      | ok meaning =>
          refine ih.bind fun rest => pure fun s s₁ hRest s₀ hPool => ?_
          rcases hPool with ⟨rfl, rfl⟩
          rcases hRest with ⟨rfl, hRest⟩
          refine ⟨rfl, fun hNumbered => ?_⟩
          refine .cons ?_ (hRest hNumbered)
          exact ⟨meaning, hMeaning, rfl, by rw [hNumbered]⟩
      | error cause =>
          refine (typeName element).bind fun _ => ?_
          exact (report _).after fun _ => ih

/- A set pattern is accepted at a set. -/
theorem setPattern
    (span : Span)
    (id : SchemaId)
    (ls : List Literal)
    (exact : Bool) :
    Sound (Check.setPattern ctx span id ls exact) fun s q s' =>
      Accepts ctx (.set span ls exact) id s q s' ∧ s' = s := by
  refine (schema id).bind fun t => ?_
  split
  · rename_i element hKind hElement
    refine pool.bind fun p => ?_
    refine (setMembers ctx span element _ ls).bind fun members => ?_
    refine pure fun s s₂ hMembers s₁ hPool s₀ hSchema => ?_
    rcases hPool with ⟨rfl, rfl⟩
    rcases hMembers with ⟨rfl, hMembers⟩
    rcases hSchema with ⟨rfl, rfl⟩
    refine ⟨.set hKind hElement fun m hm => ?_, rfl⟩
    rcases exists_counterpart (hMembers rfl) hm with ⟨l, -, hMade⟩
    exact ⟨l, hMade⟩
  · exact reject span _

/- The names that a guard uses are bound. -/
theorem guardNames
    (span : Span)
    (g : Guard) :
    Sound (Check.guardNames span g) fun s _ s' =>
      g.uses ⊆ s.names ∧ s' = s := by
  refine current.bind fun st => ?_
  dsimp only
  split
  · exact report _
  · rename_i hNone
    refine pure fun s s₀ hState => ?_
    rcases hState with ⟨rfl, rfl⟩
    refine ⟨fun x hx => ?_, rfl⟩
    rw [Bool.not_eq_true, Bool.not_eq_false', List.isEmpty_iff,
      List.filter_eq_nil_iff] at hNone
    have hBound := hNone x hx
    rwa [Bool.not_eq_true', Bool.not_eq_false, List.contains_iff_mem]
      at hBound

end Sound

end MatchCompiler

------------------------------------------------------------
-- Heads, Defaults And Names Of Branches
------------------------------------------------------------

namespace MatchCompiler

/- Names of which none is outside are among the others. -/
theorem subset_of_namesOutside
    {bindings others : List Binding}
    (h : (Check.namesOutside bindings others).isEmpty = true) :
    bindings.map Binding.name ⊆ others.map Binding.name := by
  intro x hx
  rw [List.isEmpty_iff, Check.namesOutside,
    List.filter_eq_nil_iff] at h
  have hAny := h x hx
  rw [Bool.not_eq_true', Bool.not_eq_false, List.any_eq_true] at hAny
  rcases hAny with ⟨b, hb, hEq⟩
  exact List.mem_map.mpr ⟨b, hb, eq_of_beq hEq⟩

namespace Sound

variable (ctx : CheckContext)

/- A branch binds the names of the first. -/
theorem compareAlternative
    (first bound : List Binding)
    (span : Span) :
    Sound (Check.compareAlternative first bound span) fun s _ s' =>
      (first.map Binding.name ⊆ bound.map Binding.name ∧
        bound.map Binding.name ⊆ first.map Binding.name) ∧
      s' = s := by
  unfold Check.compareAlternative
  dsimp only
  split
  · rename_i hNames
    rw [Bool.and_eq_true] at hNames
    refine pool.bind fun p => ?_
    split
    · exact report _
    · refine pure fun s s₀ hPool => ⟨⟨?_, ?_⟩, hPool.2⟩
      · exact subset_of_namesOutside hNames.1
      · exact subset_of_namesOutside hNames.2
  · exact report _

/- A head that is understood has a meaning. -/
theorem head
    (span : Span)
    (scrutinee : SchemaId)
    (h : ConstructorHead) :
    Sound (Check.head ctx span scrutinee h) fun s r s' =>
      ∀ resolved, r = .ok resolved →
        HeadMeans ctx scrutinee h s resolved s' := by
  unfold Check.head
  dsimp only
  split
  · refine pure fun s resolved hEq => ?_
    cases hEq
    exact .own _
  · refine pool.bind fun p => ?_
    split
    · refine pure fun s s₀ hPool resolved hEq => ?_
      cases hEq
      rcases hPool with ⟨-, rfl⟩
      exact .own _
    · split
      · rename_i descriptor hTarget
        refine (schemaOf ctx descriptor).bind fun slot => ?_
        refine pool.bind fun p' => ?_
        split
        · rename_i hCompat
          refine pure fun s s₂ hPool' s₁ hSlot s₀ hPool resolved hEq => ?_
          cases hEq
          rcases hPool' with ⟨rfl, rfl⟩
          rcases hSlot with ⟨rfl, rfl⟩
          rcases hPool with ⟨-, rfl⟩
          exact .base hTarget hCompat
        · rename_i hCompat
          refine (schema slot).bind fun t => ?_
          refine pure
            fun s s₃ hSchema s₂ hPool' s₁ hSlot s₀ hPool resolved hEq => ?_
          cases hEq
          rcases hSchema with ⟨rfl, rfl⟩
          rcases hPool' with ⟨rfl, rfl⟩
          rcases hSlot with ⟨rfl, rfl⟩
          rcases hPool with ⟨-, rfl⟩
          exact .derived hTarget hCompat
        · refine (typeName scrutinee).bind fun _ => ?_
          exact pure fun _ _ _ _ _ _ _ _ _ _ hEq => nomatch hEq
      · refine (schema scrutinee).bind fun t => ?_
        split
        · refine pure fun s s₁ hSchema s₀ hPool resolved hEq => ?_
          cases hEq
          rcases hSchema with ⟨-, rfl⟩
          rcases hPool with ⟨-, rfl⟩
          exact .own _
        · refine pool.bind fun _ => ?_
          exact pure fun _ _ _ _ _ _ _ _ hEq => nomatch hEq

/-
  Case name and discriminator pin branches together, and they
  leave one of them if the case name does.
-/
theorem pinBoth
    (t : Schema)
    (field : FieldName)
    (fromCase : Option (List Member))
    (read : FieldRead)
    (q : Checked) :
    Sound (Check.pinBoth t field fromCase q) fun s r s' =>
      (r = t.pinnedBy fromCase [(read, q)] ∧
        (r = some [] → fromCase.getD [] = [])) ∧
      s' = s := by
  unfold Check.pinBoth Schema.pinnedBy
  dsimp only
  cases q.labels t with
  | none =>
      refine pure fun s => ⟨⟨rfl, ?_⟩, rfl⟩
      rintro rfl
      rfl
  | some labels =>
      cases fromCase with
      | none => exact pure fun s => ⟨⟨rfl, fun _ => rfl⟩, rfl⟩
      | some named =>
          dsimp only
          split
          · exact (report _).after fun _ => pure_true _
          · rename_i hSome
            refine pure fun s => ⟨⟨rfl, fun hNone => ?_⟩, rfl⟩
            rw [Option.some.inj hNone] at hSome
            exact absurd List.isEmpty_nil hSome

/- The defaults of slots are of the element type. -/
theorem slotDefaults
    (element : SchemaId)
    (es : List (SeqElement Pattern)) :
    Sound (Check.slotDefaults ctx element es) fun s _ s' =>
      (∀ p l, .item p (some l) ∈ es →
        ∃ meaning,
          s.pool.checkLiteral ctx.marker element l = .ok meaning) ∧
      s' = s := by
  induction es with
  | nil => exact pure fun s => ⟨nofun, rfl⟩
  | cons e es ih =>
      have hSkip :
          (∀ p l, e ≠ .item p (some l)) →
          Sound (Check.slotDefaults ctx element es) fun s _ s' =>
            (∀ p l, .item p (some l) ∈ e :: es →
              ∃ meaning,
                s.pool.checkLiteral ctx.marker element l =
                  .ok meaning) ∧
            s' = s := by
        intro hNot
        refine ih.mono fun s _ s' hRest => ⟨fun p l hMem => ?_, hRest.2⟩
        rcases List.mem_cons.mp hMem with hEq | hMem
        · exact absurd hEq.symm (hNot p l)
        · exact hRest.1 p l hMem
      match e, hSkip with
      | .spread _ _, hSkip => exact hSkip nofun
      | .item p none, hSkip => exact hSkip nofun
      | .item p (some l), _ =>
          refine pool.bind fun pool => ?_
          cases hMeaning : pool.checkLiteral ctx.marker element l with
          | ok meaning =>
              refine ih.mono fun s _ s' hRest s₀ hPool => ?_
              rcases hPool with ⟨rfl, rfl⟩
              refine ⟨fun p' l' hMem => ?_, hRest.2⟩
              rcases List.mem_cons.mp hMem with hEq | hMem
              · cases hEq
                exact ⟨meaning, hMeaning⟩
              · exact hRest.1 p' l' hMem
          | error cause =>
              refine (typeName element).bind fun _ => ?_
              exact (report _).after fun _ => ih

end Sound

end MatchCompiler

------------------------------------------------------------
-- Parts In Turn
------------------------------------------------------------

namespace MatchCompiler

/- What is known of a pattern that is checked at a slot. -/
abbrev Outcome :=
  Pattern → SchemaId → Progress → Checked → Progress → Prop

/- Parts are checked one after the other. -/
inductive InTurn
    (R : Outcome)
    {α : Type} :
    List (α × SchemaId × Pattern) → Progress →
    List (α × Checked) → Progress → Prop
| nil
    (s : Progress) :
    InTurn R [] s [] s
| cons
    {label : α}
    {id : SchemaId}
    {p : Pattern}
    {q : Checked}
    {parts : List (α × SchemaId × Pattern)}
    {qs : List (α × Checked)}
    {s s₁ s₂ : Progress}
    (hHead : R p id s q s₁)
    (hTail : InTurn R parts s₁ qs s₂) :
    InTurn R ((label, id, p) :: parts) s ((label, q) :: qs) s₂

/- Branches are checked, each from the names bound before. -/
inductive BranchesInTurn
    (R : Outcome)
    (id : SchemaId)
    (before : List Binding) :
    List Pattern → Registry → List (Checked × List Binding) →
    Registry → Prop
| nil
    (r : Registry) :
    BranchesInTurn R id before [] r [] r
| cons
    {added : List Binding}
    {p : Pattern}
    {ps : List Pattern}
    {q : Checked}
    {qs : List (Checked × List Binding)}
    {r r₁ r₂ : Registry}
    (hHead :
      R p id { registry := r, bindings := before } q
        { registry := r₁, bindings := before ++ added })
    (hTail : BranchesInTurn R id before ps r₁ qs r₂) :
    BranchesInTurn R id before (p :: ps) r ((q, added) :: qs) r₂

/- What a spread is bound to is checked at a sequence. -/
inductive SpreadInTurn
    (R : Outcome)
    (element : SchemaId) :
    Option Pattern → Progress → Option Checked → Progress → Prop
| none
    (s : Progress) :
    SpreadInTurn R element none s none s
| some
    {p : Pattern}
    {q : Checked}
    {s s' : Progress}
    (hInner :
      R p (s.sequenceOf element).2 (s.sequenceOf element).1 q s') :
    SpreadInTurn R element (some p) s (some q) s'

/- Parts in two groups are checked one after the other. -/
theorem InTurn.append
    {R : Outcome}
    {α : Type}
    {parts parts' : List (α × SchemaId × Pattern)}
    {qs qs' : List (α × Checked)}
    {s s' s'' : Progress}
    (h : InTurn R parts s qs s')
    (h' : InTurn R parts' s' qs' s'') :
    InTurn R (parts ++ parts') s (qs ++ qs') s'' := by
  induction h with
  | nil => exact h'
  | cons hHead _ ih => exact .cons hHead (ih h')

section

variable {R R' : Outcome}
variable (hImp : ∀ {p id s q s'}, R p id s q s' → R' p id s q s')

include hImp

/- What is known of parts in turn implies what follows from it. -/
theorem InTurn.imp
    {α : Type}
    {parts : List (α × SchemaId × Pattern)}
    {qs : List (α × Checked)}
    {s s' : Progress}
    (h : InTurn R parts s qs s') :
    InTurn R' parts s qs s' := by
  induction h with
  | nil s => exact .nil s
  | cons hHead _ ih => exact .cons (hImp hHead) ih

theorem BranchesInTurn.imp
    {id : SchemaId}
    {before : List Binding}
    {ps : List Pattern}
    {branches : List (Checked × List Binding)}
    {r r' : Registry}
    (h : BranchesInTurn R id before ps r branches r') :
    BranchesInTurn R' id before ps r branches r' := by
  induction h with
  | nil r => exact .nil r
  | cons hHead _ ih => exact .cons (hImp hHead) ih

theorem SpreadInTurn.imp
    {element : SchemaId}
    {p : Option Pattern}
    {q : Option Checked}
    {s s' : Progress}
    (h : SpreadInTurn R element p s q s') :
    SpreadInTurn R' element p s q s' := by
  cases h with
  | none s => exact .none s
  | some hInner => exact .some (hImp hInner)

end

/- Names are only ever added. -/
def Progress.Grows (s s' : Progress) : Prop :=
  s.bindings <+: s'.bindings

theorem Progress.Grows.trans
    {s s' s'' : Progress}
    (h : s.Grows s')
    (h' : s'.Grows s'') :
    s.Grows s'' :=
  List.IsPrefix.trans h h'

theorem Progress.grows_refl
    (s : Progress) :
    s.Grows s :=
  List.prefix_refl _

theorem Progress.grows_add
    (s : Progress)
    (b : Binding) :
    s.Grows (s.add b) :=
  List.prefix_append _ _

/- Resolving a head binds no name. -/
theorem HeadMeans.grows
    {ctx : CheckContext}
    {scrutinee : SchemaId}
    {h : ConstructorHead}
    {resolved : ResolvedHead}
    {s s' : Progress}
    (hHead : HeadMeans ctx scrutinee h s resolved s') :
    s.Grows s' := by
  cases hHead <;> exact List.prefix_refl _

/- A pattern is accepted, and names are only added. -/
def AcceptedOutcome
    (ctx : CheckContext) : Outcome :=
  fun p id s q s' => Accepts ctx p id s q s' ∧ s.Grows s'

section

variable {ctx : CheckContext}

/- Parts are accepted one after the other. -/
theorem InTurn.accepts
    {α : Type}
    {parts : List (α × SchemaId × Pattern)}
    {qs : List (α × Checked)}
    {s s' : Progress}
    (h : InTurn (AcceptedOutcome ctx) parts s qs s') :
    AcceptsAll ctx parts s qs s' ∧ s.Grows s' := by
  induction h with
  | nil s => exact ⟨.nil s, s.grows_refl⟩
  | cons hHead _ ih =>
      exact ⟨.cons hHead.1 ih.1, hHead.2.trans ih.2⟩

theorem BranchesInTurn.accepts
    {id : SchemaId}
    {before : List Binding}
    {ps : List Pattern}
    {branches : List (Checked × List Binding)}
    {r r' : Registry}
    (h :
      BranchesInTurn (AcceptedOutcome ctx) id before ps r branches r') :
    AcceptsBranches ctx id before ps r branches r' := by
  induction h with
  | nil r => exact .nil id before r
  | cons hHead _ ih => exact .cons hHead.1 ih

theorem SpreadInTurn.accepts
    {element : SchemaId}
    {p : Option Pattern}
    {q : Option Checked}
    {s s' : Progress}
    (h : SpreadInTurn (AcceptedOutcome ctx) element p s q s') :
    AcceptsSpread ctx element p s q s' ∧ s.Grows s' := by
  cases h with
  | none => exact ⟨.none element s, s.grows_refl⟩
  | some hInner => exact ⟨.some hInner.1, hInner.2⟩

end

namespace Pattern

/-
  Checking a pattern that reports nothing comes to what is
  known of it.
-/
def ChecksTo
    (ctx : CheckContext)
    (R : Outcome)
    (p : Pattern) : Prop :=
  ∀ id, Sound (p.check ctx id) (R p id)

variable {ctx : CheckContext}
variable {R : Outcome}

/- A branch binds the same names as the first one. -/
theorem sound_compareFirst
    (first : Option (List Binding))
    (bound : List Binding)
    (span : Span)
    {α : Type}
    {k : Check α}
    {post : Progress → α → Progress → Prop}
    (hk :
      Sound k fun s y s' =>
        (∀ f ∈ first,
          bound.map Binding.name ⊆ f.map Binding.name ∧
          f.map Binding.name ⊆ bound.map Binding.name) →
        post s y s') :
    Sound
      (match first with
        | none => k
        | some f => do
            Check.compareAlternative f bound span
            k) post := by
  cases first with
  | none => exact hk.mono fun s y s' hPost => hPost nofun
  | some f =>
      refine (Sound.compareAlternative f bound span).bind fun _ => ?_
      refine hk.mono fun s y s' hPost s₀ hSame => ?_
      rcases hSame with ⟨hNames, rfl⟩
      refine hPost ?_
      rintro f' ⟨⟩
      exact ⟨hNames.2, hNames.1⟩

theorem sound_checkBranches
    {ps : List Pattern}
    (h : ∀ p ∈ ps, p.ChecksTo ctx R)
    (hGrows : ∀ p id s q s', R p id s q s' → s.Grows s')
    (id : SchemaId)
    (before : List Binding)
    (first : Option (List Binding)) :
    Sound (checkBranches ctx id before first ps) fun s r s' =>
      ∃ branches,
        BranchesInTurn R id before ps s.registry branches
          s'.registry ∧
        r = (branches.map Prod.fst,
          first.or (branches.head?.map Prod.snd)) ∧
        ∀ b ∈ branches, ∀ f ∈ r.2,
          b.2.map Binding.name ⊆ f.map Binding.name ∧
          f.map Binding.name ⊆ b.2.map Binding.name := by
  induction ps generalizing first with
  | nil =>
      refine Sound.pure fun s => ⟨[], .nil _, ?_, nofun⟩
      simp
  | cons p ps ih =>
      rcases List.forall_mem_cons.mp h with ⟨hHead, hTail⟩
      refine (Sound.resetBindings before).bind fun _ => ?_
      refine (hHead id).bind fun q => ?_
      refine Sound.current.bind fun st => ?_
      refine sound_compareFirst first _ p.span ?_
      refine (ih hTail _).bind fun r => ?_
      refine Sound.pure fun s s₄ hRest hSame s₂ hState s₁ hOutcome s₀
        hReset => ?_
      cases hReset
      rcases hState with ⟨rfl, rfl⟩
      rcases hGrows _ _ _ _ _ hOutcome with ⟨added, hAdded⟩
      rcases hRest with ⟨branches, hBranches, rfl, hAlike⟩
      have hProgress :
          st.progress = ⟨st.registry, before ++ added⟩ := by
        rw [hAdded]
        rfl
      have hBound : st.bindings.drop before.length = added := by
        have hEq : before ++ added = st.bindings := hAdded
        rw [← hEq, List.drop_left]
      rw [hBound] at hSame hAlike ⊢
      rw [hProgress] at hOutcome
      refine ⟨(q, added) :: branches, .cons hOutcome hBranches, ?_, ?_⟩
      · cases first <;> rfl
      · cases first with
        | none =>
            rw [List.forall_mem_cons]
            refine ⟨?_, hAlike⟩
            rintro f ⟨⟩
            exact ⟨List.Subset.refl _, List.Subset.refl _⟩
        | some f => exact List.forall_mem_cons.mpr ⟨hSame, hAlike⟩

/- Branches that bind the names of one bind alike. -/
theorem bindAlike_of_first
    {branches : List (Checked × List Binding)}
    (h :
      ∀ b ∈ branches, ∀ f ∈ branches.head?.map Prod.snd,
        b.2.map Binding.name ⊆ f.map Binding.name ∧
        f.map Binding.name ⊆ b.2.map Binding.name) :
    BindAlike branches := by
  intro b hb c hc
  cases branches with
  | nil => cases hb
  | cons d ds =>
      have hb' := (h b hb d.2 rfl).1
      have hc' := (h c hc d.2 rfl).2
      exact List.Subset.trans hb' hc'

/- What becomes of the discriminator's pattern. -/
def discriminatorRead
    (t : Schema)
    (r : Option (FieldName × Checked)) : Option (FieldRead × Checked) :=
  r.map fun (name, q) =>
    let position :=
      ((t.field? name.name).map Field.position).getD 0
    ({ name := name.name, position }, q)

theorem sound_checkField
    {t : Schema}
    {d : Discriminator}
    (hDisc : t.discriminator = some d)
    {fs : List (FieldName × Pattern)}
    (h : ∀ f ∈ fs, f.2.ChecksTo ctx R) :
    Sound (checkField ctx d fs) fun s r s' =>
      InTurn R (t.discriminatorParts fs) s
        (discriminatorRead t r).toList s' := by
  simp only [Schema.discriminatorParts, hDisc]
  induction fs with
  | nil => exact Sound.pure fun s => .nil s
  | cons f fs ih =>
      rcases List.forall_mem_cons.mp h with ⟨hHead, hTail⟩
      unfold checkField
      rw [List.find?_cons]
      cases hEq : f.1.name == d.field with
      | true =>
          refine (hHead d.schema).bind fun q => ?_
          refine Sound.pure fun s s₀ hOutcome => ?_
          exact .cons hOutcome (.nil s)
      | false => exact ih hTail

/- Nothing is wrong with the fields that can not be read. -/
theorem sound_checkFields
    (t : Schema)
    (pinned : Option (List Member))
    {fs : List (FieldName × Pattern)}
    (h : ∀ f ∈ fs, f.2.ChecksTo ctx R) :
    Sound (checkFields ctx t pinned fs) fun s r s' =>
      InTurn R (t.namedParts pinned fs) s r s' ∧
      ∀ f ∈ fs, t.isDiscriminator f.1.name = false →
        ∃ g, t.readable pinned f.1.name f.1.span = .ok g := by
  induction fs with
  | nil => exact Sound.pure fun s => ⟨.nil s, nofun⟩
  | cons f fs ih =>
      rcases List.forall_mem_cons.mp h with ⟨hHead, hTail⟩
      have hRest := ih hTail
      unfold checkFields
      rw [Schema.namedParts, List.filterMap_cons, Schema.namedPart?]
      by_cases hDisc : t.isDiscriminator f.1.name = true
      · rw [if_pos hDisc, if_pos hDisc]
        refine hRest.mono fun s r s' hParts => ⟨hParts.1, ?_⟩
        refine List.forall_mem_cons.mpr ⟨fun hOther => ?_, hParts.2⟩
        cases hDisc.symm.trans hOther
      · rw [if_neg hDisc, if_neg hDisc]
        cases hRead : t.readable pinned f.1.name f.1.span with
        | error problem =>
            exact (Sound.report problem).after fun _ => hRest
        | ok field? =>
            cases field? with
            | none =>
                refine hRest.mono fun s r s' hParts => ⟨hParts.1, ?_⟩
                exact List.forall_mem_cons.mpr
                  ⟨fun _ => ⟨none, hRead⟩, hParts.2⟩
            | some field =>
                refine (hHead field.schema).bind fun q => ?_
                refine hRest.bind fun rest => ?_
                refine Sound.pure fun s s₁ hParts s₀ hOutcome => ?_
                refine ⟨.cons hOutcome hParts.1, ?_⟩
                exact List.forall_mem_cons.mpr
                  ⟨fun _ => ⟨some field, hRead⟩, hParts.2⟩

theorem sound_checkArgs
    {ps : List Pattern}
    (h : ∀ p ∈ ps, p.ChecksTo ctx R)
    (fs : List Field) :
    Sound (checkArgs ctx ps fs) fun s r s' =>
      InTurn R
        (List.zipWith (fun p f => (f.read, f.schema, p)) ps fs) s r
        s' := by
  induction ps generalizing fs with
  | nil => exact Sound.pure fun s => .nil s
  | cons p ps ih =>
      rcases List.forall_mem_cons.mp h with ⟨hHead, hTail⟩
      cases fs with
      | nil => exact Sound.pure fun s => .nil s
      | cons f fs =>
          refine (hHead f.schema).bind fun q => ?_
          refine (ih hTail fs).bind fun rest => ?_
          refine Sound.pure fun s s₁ hParts s₀ hOutcome => ?_
          exact .cons hOutcome hParts

theorem sound_checkItems
    (element : SchemaId)
    {es : List (SeqElement Pattern)}
    (h : ∀ e ∈ es, ∀ p ∈ e.pattern?, p.ChecksTo ctx R) :
    Sound (checkItems ctx element es) fun s r s' =>
      ∃ items,
        InTurn R (SeqElement.itemParts element es) s items s' ∧
        r = items.map Prod.snd := by
  induction es with
  | nil => exact Sound.pure fun s => ⟨[], .nil s, rfl⟩
  | cons e es ih =>
      rcases List.forall_mem_cons.mp h with ⟨hHead, hTail⟩
      cases e with
      | spread q span => exact ih hTail
      | item p d =>
          refine (hHead p rfl element).bind fun q => ?_
          refine (ih hTail).bind fun rest => ?_
          refine Sound.pure fun s s₁ hParts s₀ hOutcome => ?_
          rcases hParts with ⟨items, hItems, rfl⟩
          exact ⟨(d, q) :: items, .cons hOutcome hItems, rfl⟩

theorem sound_checkSpread
    (element : SchemaId)
    {es : List (SeqElement Pattern)}
    (h : ∀ e ∈ es, ∀ p ∈ e.pattern?, p.ChecksTo ctx R) :
    Sound (checkSpread ctx element es) fun s r s' =>
      SpreadInTurn R element (SeqElement.spreadPattern? es) s r s' := by
  induction es with
  | nil => exact Sound.pure fun s => .none s
  | cons e es ih =>
      rcases List.forall_mem_cons.mp h with ⟨hHead, hTail⟩
      match e, hHead with
      | .item _ _, _ => exact ih hTail
      | .spread none _, _ => exact ih hTail
      | .spread (some p) _, hHead =>
          refine (Sound.sequenceOf element).bind fun slot => ?_
          refine (hHead p rfl slot).bind fun q => ?_
          refine Sound.pure fun s s₁ hOutcome s₀ hSlot => ?_
          rcases hSlot with ⟨rfl, rfl⟩
          exact .some hOutcome

theorem sound_checkTuple
    {es : List (SeqElement Pattern)}
    (h : ∀ e ∈ es, ∀ p ∈ e.pattern?, p.ChecksTo ctx R)
    (fs : List Field) :
    Sound (checkTuple ctx es fs) fun s r s' =>
      InTurn R (SeqElement.tupleParts es fs) s r s' := by
  induction es generalizing fs with
  | nil => exact Sound.pure fun s => .nil s
  | cons e es ih =>
      rcases List.forall_mem_cons.mp h with ⟨hHead, hTail⟩
      cases fs with
      | nil => cases e <;> exact Sound.pure fun s => .nil s
      | cons f fs =>
          cases e with
          | spread q span => exact ih hTail fs
          | item p d =>
              refine (hHead p rfl f.schema).bind fun q => ?_
              refine (ih hTail fs).bind fun rest => ?_
              refine Sound.pure fun s s₁ hParts s₀ hOutcome => ?_
              exact .cons hOutcome hParts

theorem sound_checkEntries
    (key value : SchemaId)
    {es : List (Literal × Pattern)}
    (h : ∀ e ∈ es, e.2.ChecksTo ctx R) :
    Sound (checkEntries ctx key value es) fun s r s' =>
      InTurn R (entryParts value es) s r s' := by
  induction es with
  | nil => exact Sound.pure fun s => .nil s
  | cons e es ih =>
      rcases List.forall_mem_cons.mp h with ⟨hHead, hTail⟩
      refine Sound.pool.bind fun p => ?_
      split
      · refine (hHead value).bind fun q => ?_
        refine (ih hTail).bind fun rest => ?_
        refine Sound.pure fun s s₂ hParts s₁ hOutcome s₀ hPool => ?_
        rcases hPool with ⟨-, rfl⟩
        exact .cons hOutcome hParts
      · refine (Sound.typeName key).bind fun _ => ?_
        exact (Sound.report _).after fun _ => ih hTail

end Pattern

end MatchCompiler

------------------------------------------------------------
-- Nodes With Parts
------------------------------------------------------------

namespace MatchCompiler

/-
  What is known of a constructor pattern: it stands for a case
  of an optional, or its parts are checked against fields. No
  field is given that can not be read, no argument stands for
  nothing, and the discriminator's pattern leaves a branch of
  those that the case name pins.
-/
inductive ConstructorOutcome
    (ctx : CheckContext)
    (R : Outcome)
    (span : Span)
    (h : ConstructorHead)
    (id : SchemaId)
    (s : Progress) :
    List (FieldName × Pattern) → List Pattern → Checked → Progress → Prop
| some
    {p : Pattern}
    {element : SchemaId}
    {q : Checked}
    {s' : Progress}
    (hKind : (s.pool.get id).structuralKind = .optional)
    (hElement : (s.pool.get id).element = some element)
    (hInner : R p element s q s') :
    ConstructorOutcome ctx R span h id s [] [p] (.some span q) s'
| someUnknown
    {p : Pattern}
    (hKind : (s.pool.get id).structuralKind = .optional)
    (hElement : (s.pool.get id).element = Option.none) :
    ConstructorOutcome ctx R span h id s [] [p]
      (.some span (.wildcard p.span)) s
| none
    (hKind : (s.pool.get id).structuralKind = .optional) :
    ConstructorOutcome ctx R span h id s [] [] (.literal span .none) s
| object
    {fields : List (FieldName × Pattern)}
    {args : List Pattern}
    {resolved : ResolvedHead}
    {target : Schema}
    {fromCase : Option (List Member)}
    {disc rest : List (FieldRead × Checked)}
    {s₁ s₂ s₃ : Progress}
    (hKind :
      (s.pool.get id).structuralKind = .record ∨
        (s.pool.get id).structuralKind = .union)
    (hHead : HeadMeans ctx id h s resolved s₁)
    (hSchema : s₁.pool.get resolved.target = target)
    (hCase :
      resolved.caseName.mapM
        (fun c => target.pinCase ctx.marker c span) = .ok fromCase)
    (hDisc : InTurn R (target.discriminatorParts fields) s₁ disc s₂)
    (hRest :
      InTurn R
        (target.namedParts (target.pinnedBy fromCase disc) fields ++
          target.unnamedParts (target.pinnedBy fromCase disc) args)
        s₂ rest s₃)
    (hReadable :
      ∀ f ∈ fields, target.isDiscriminator f.1.name = false →
        ∃ g, target.readable (target.pinnedBy fromCase disc) f.1.name
          f.1.span = .ok g)
    (hMeet :
      target.pinnedBy fromCase disc = some [] → fromCase.getD [] = [])
    (hArgs :
      args.length ≤
        (target.positionalFields (target.pinnedBy fromCase disc)).length) :
    ConstructorOutcome ctx R span h id s fields args
      (.object span
        { schema := resolved.target
          nilCheck := (s.pool.get id).isReference
          runtimeType := resolved.runtimeType
          pin := fromCase.map fun labels =>
            { discriminator := target.discriminatorName, labels } }
        (disc ++ rest)) s₃

/-
  What is known of a positional pattern: its parts are checked
  against one element type, or against the fields of a tuple,
  each of which has one of them.
-/
inductive PositionalOutcome
    (ctx : CheckContext)
    (R : Outcome)
    (span : Span)
    (es : List (SeqElement Pattern))
    (id : SchemaId)
    (s : Progress) : Checked → Progress → Prop
| seq
    {element : SchemaId}
    {items : List (Option Literal × Checked)}
    {spread : Option Checked}
    {s₁ s₂ : Progress}
    (hOne : (SeqElement.spreadSpans es).length ≤ 1)
    (hKind :
      (s.pool.get id).structuralKind = .sequence ∨
        (s.pool.get id).structuralKind = .array)
    (hElement : (s.pool.get id).element = some element)
    (hDefaults :
      ∀ p l, .item p (some l) ∈ es →
        ∃ meaning,
          s.pool.checkLiteral ctx.marker element l = .ok meaning)
    (hFixed :
      ∀ n ∈ (s.pool.get id).fixedLength?,
        (SeqElement.layout es).accepts n)
    (hItems : InTurn R (SeqElement.itemParts element es) s items s₁)
    (hSpread :
      SpreadInTurn R element (SeqElement.spreadPattern? es) s₁ spread
        s₂) :
    PositionalOutcome ctx R span es id s
      (.seq span (SeqElement.layout es) (s.pool.get id).fixedLength?
        (items.map Prod.snd) spread) s₂
| tuple
    {items : List (Nat × Checked)}
    {s' : Progress}
    (hKind : (s.pool.get id).structuralKind = .tuple)
    (hPlain :
      SeqElement.tupleProblem? (s.pool.get id).displayName es = none)
    (hLength : es.length = (s.pool.get id).fields.length)
    (hItems :
      InTurn R (SeqElement.tupleParts es (s.pool.get id).fields) s items
        s') :
    PositionalOutcome ctx R span es id s (.tuple span items) s'

namespace Pattern

variable {ctx : CheckContext}
variable {R : Outcome}

/- A constructor pattern over an optional stands for a case. -/
theorem sound_checkOptional
    (span : Span)
    (id : SchemaId)
    (t : Schema)
    (h : ConstructorHead)
    (fs : List (FieldName × Pattern))
    {ps : List Pattern}
    (hArgs : ∀ p ∈ ps, p.ChecksTo ctx R)
    (hKind : t.structuralKind = .optional) :
    Sound (checkOptional ctx span t h fs.length ps) fun s q s' =>
      t = s.pool.get id →
        ConstructorOutcome ctx R span h id s fs ps q s' := by
  unfold checkOptional
  split
  · rename_i p
    have hArg := hArgs p List.mem_cons_self
    by_cases hSome :
        (h.name == some "Some" && fs.length == 0) = true
    · rw [if_pos hSome]
      rw [Bool.and_eq_true, beq_iff_eq, beq_iff_eq,
        List.length_eq_zero_iff] at hSome
      rcases hSome with ⟨-, rfl⟩
      cases hElement : t.element with
      | none =>
          refine Sound.pure fun s hEq => ?_
          subst hEq
          exact .someUnknown hKind hElement
      | some element =>
          refine (hArg element).bind fun q => ?_
          refine Sound.pure fun s s₀ hOutcome hEq => ?_
          subst hEq
          exact .some hKind hElement hOutcome
    · rw [if_neg hSome]
      exact Sound.reject span _
  · dsimp only
    split
    · rename_i hNone
      rw [Bool.and_eq_true, beq_iff_eq, beq_iff_eq,
        Nat.add_eq_zero_iff, List.length_eq_zero_iff,
        List.length_eq_zero_iff] at hNone
      rcases hNone with ⟨-, rfl, rfl⟩
      refine Sound.pure fun s hEq => ?_
      subst hEq
      exact .none hKind
    · exact Sound.reject span _

/- The discriminator's pattern is checked, if there is one. -/
theorem sound_discriminator
    (t : Schema)
    {fs : List (FieldName × Pattern)}
    (h : ∀ f ∈ fs, f.2.ChecksTo ctx R)
    {α : Type}
    {k : Option (FieldName × Checked) → Check α}
    {post : Progress → α → Progress → Prop}
    (hk :
      ∀ r, Sound (k r) fun s' y s'' =>
        ∀ s,
          InTurn R (t.discriminatorParts fs) s
            (discriminatorRead t r).toList s' →
          post s y s'') :
    Sound
      (match t.discriminator with
        | none => do k (← pure none)
        | some d => do k (← checkField ctx d fs)) post := by
  cases hDisc : t.discriminator with
  | none =>
      have hNone :
          Sound (pure none) fun s (r : Option (FieldName × Checked)) s' =>
            InTurn R (t.discriminatorParts fs) s
              (discriminatorRead t r).toList s' := by
        refine Sound.pure fun s => ?_
        simp only [Schema.discriminatorParts, hDisc]
        exact .nil s
      exact hNone.bind hk
  | some d => exact (sound_checkField hDisc h).bind hk

/- The branches that are pinned are known. -/
theorem sound_pinned
    (t : Schema)
    (fromCase : Option (List Member))
    (disc : Option (FieldName × Checked))
    {α : Type}
    {k : Option (List Member) → Check α}
    {post : Progress → α → Progress → Prop}
    (hk :
      ∀ pinned, Sound (k pinned) fun s y s' =>
        pinned =
          t.pinnedBy fromCase (discriminatorRead t disc).toList →
        (pinned = some [] → fromCase.getD [] = []) →
        post s y s') :
    Sound
      (match disc with
        | none => do k (← pure fromCase)
        | some (name, q) => do
            k (← Check.pinBoth t name fromCase q)) post := by
  have hPinned
      {m : Check (Option (List Member))}
      (hm :
        Sound m fun s r s' =>
          (r = t.pinnedBy fromCase (discriminatorRead t disc).toList ∧
            (r = some [] → fromCase.getD [] = [])) ∧
          s' = s) :
      Sound (m >>= k) post := by
    refine hm.bind fun pinned => ?_
    refine (hk pinned).mono fun s y s' hPost s₀ hBoth => ?_
    rcases hBoth with ⟨⟨hEq, hMeet⟩, rfl⟩
    exact hPost hEq hMeet
  cases disc with
  | none =>
      refine hPinned (Sound.pure fun s => ⟨⟨rfl, ?_⟩, rfl⟩)
      rintro rfl
      rfl
  | some d => exact hPinned (Sound.pinBoth t d.1 fromCase _ d.2)

/- The other fields and the arguments are checked. -/
theorem sound_fieldsAndArgs
    (t : Schema)
    (pinned : Option (List Member))
    {fs : List (FieldName × Pattern)}
    {ps : List Pattern}
    (hFields : ∀ f ∈ fs, f.2.ChecksTo ctx R)
    (hArgs : ∀ p ∈ ps, p.ChecksTo ctx R)
    (problem : Problem)
    (build :
      List (FieldRead × Checked) → List (FieldRead × Checked) →
      Checked) :
    Sound
      (do
        let named ← checkFields ctx t pinned fs
        if (t.positionalFields pinned).length < ps.length then
          Check.report problem
        let unnamed ← checkArgs ctx ps (t.positionalFields pinned)
        return build named unnamed)
      fun s q s' =>
        ∃ named unnamed,
          InTurn R
            (t.namedParts pinned fs ++ t.unnamedParts pinned ps) s
            (named ++ unnamed) s' ∧
          (∀ f ∈ fs, t.isDiscriminator f.1.name = false →
            ∃ g, t.readable pinned f.1.name f.1.span = .ok g) ∧
          ps.length ≤ (t.positionalFields pinned).length ∧
          q = build named unnamed := by
  refine (sound_checkFields t pinned hFields).bind fun named => ?_
  have hUnnamed :
      Sound
        (do
          let unnamed ← checkArgs ctx ps (t.positionalFields pinned)
          return build named unnamed)
        fun s q s' =>
          ∃ unnamed, InTurn R (t.unnamedParts pinned ps) s unnamed s' ∧
            q = build named unnamed := by
    refine (sound_checkArgs hArgs _).bind fun unnamed => ?_
    exact Sound.pure fun s s₀ hParts => ⟨unnamed, hParts, rfl⟩
  dsimp only
  split
  · exact (Sound.report problem).after fun _ => hUnnamed
  · rename_i hFits
    refine hUnnamed.mono fun s q s' hSecond s₀ hFirst => ?_
    rcases hSecond with ⟨unnamed, hSecond, rfl⟩
    exact ⟨named, unnamed, hFirst.1.append hSecond, hFirst.2,
      Nat.le_of_not_lt hFits, rfl⟩

/- A constructor pattern comes to what is known of it. -/
theorem sound_constructor
    (span : Span)
    (h : ConstructorHead)
    {fs : List (FieldName × Pattern)}
    {ps : List Pattern}
    (hFields : ∀ f ∈ fs, f.2.ChecksTo ctx R)
    (hArgs : ∀ p ∈ ps, p.ChecksTo ctx R)
    (id : SchemaId) :
    Sound ((Pattern.constructor span h fs ps).check ctx id)
      fun s q s' => ConstructorOutcome ctx R span h id s fs ps q s' := by
  refine (Sound.schema id).bind fun t => ?_
  dsimp only
  split
  · rename_i hKind
    refine (sound_checkOptional span id t h fs hArgs hKind).mono
      fun s q s' hOutcome s₀ hSchema => ?_
    rcases hSchema with ⟨hSchema, rfl⟩
    exact hOutcome hSchema
  -- Records and unions are checked alike.
  iterate 2
    · rename_i hKind
      refine (Sound.head ctx span id h).bind fun r => ?_
      split
      · exact Sound.reject span _
      · rename_i resolved
        refine (Sound.schema resolved.target).bind fun target => ?_
        split
        · exact Sound.reject span _
        · rename_i fromCase hCase
          refine sound_discriminator target hFields fun disc => ?_
          refine sound_pinned target fromCase disc fun pinned => ?_
          refine (sound_fieldsAndArgs target pinned hFields hArgs
            _ _).mono fun s q s' hRest hPinned hMeet s₂ hDisc s₁ hTarget
              s₀ hHead _ hSchema => ?_
          subst hPinned
          rcases hRest with ⟨named, unnamed, hRest, hReadable, hFits, rfl⟩
          rcases hTarget with ⟨rfl, rfl⟩
          rcases hSchema with ⟨rfl, rfl⟩
          rw [List.append_assoc]
          refine .object ?_ (hHead resolved rfl) rfl hCase hDisc hRest
            hReadable hMeet hFits
          first
            | exact .inl hKind
            | exact .inr hKind
  · exact Sound.reject span _
  · exact Sound.reject span _

/- An array without a problem has a length that fits. -/
theorem accepts_of_arrayProblem?
    {span : Span}
    {type : String}
    {layout : SeqLayout}
    {n : Nat}
    (h : Check.arrayProblem? span type layout n = none) :
    layout.accepts n = true := by
  unfold Check.arrayProblem? at h
  split at h
  · assumption
  · split at h
    · split at h <;> cases h
    · cases h

/- A positional pattern comes to what is known of it. -/
theorem sound_positional
    (span : Span)
    {es : List (SeqElement Pattern)}
    (h : ∀ e ∈ es, ∀ p ∈ e.pattern?, p.ChecksTo ctx R)
    (id : SchemaId) :
    Sound ((Pattern.seq span es).check ctx id)
      fun s q s' => PositionalOutcome ctx R span es id s q s' := by
  unfold check
  split
  · exact Sound.reject span _
  · rename_i hOne
    refine (Sound.schema id).bind fun t => ?_
    split
    -- Sequences and arrays are checked alike.
    iterate 2
      · rename_i element hKind hElement
        refine (Sound.slotDefaults ctx element es).bind fun _ => ?_
        dsimp only
        split
        · exact Sound.reject span _
        · rename_i hArray
          refine (sound_checkItems element h).bind fun items => ?_
          refine (sound_checkSpread element h).bind fun spread => ?_
          refine Sound.pure fun s s₃ hSpread s₂ hItems s₁ hDefaults
            s₀ hSchema => ?_
          rcases hSchema with ⟨rfl, rfl⟩
          rcases hItems with ⟨items, hItems, rfl⟩
          rcases hDefaults with ⟨hDefaults, rfl⟩
          refine .seq ?_ ?_ hElement hDefaults ?_ hItems hSpread
          · match hSpans : SeqElement.spreadSpans es with
            | [] => exact Nat.zero_le 1
            | [_] => exact Nat.le_refl 1
            | _ :: _ :: _ => exact (hOne _ _ _ hSpans).elim
          · first
              | exact .inl hKind
              | exact .inr hKind
          · intro n hn
            rw [Option.mem_def] at hn
            rw [hn] at hArray
            exact accepts_of_arrayProblem? hArray
    · rename_i hKind
      split
      · exact Sound.reject span _
      · rename_i hPlain
        split
        · exact Sound.reject span _
        · rename_i hLength
          refine (sound_checkTuple h t.fields).bind fun items => ?_
          refine Sound.pure fun s s₁ hItems s₀ hSchema => ?_
          rcases hSchema with ⟨rfl, rfl⟩
          exact .tuple hKind hPlain (by simpa using hLength) hItems
    · exact Sound.reject span _
    · exact Sound.reject span _

/- The branches of an alternation bind alike. -/
theorem sound_alt
    (span : Span)
    {ps : List Pattern}
    (h : ∀ p ∈ ps, p.ChecksTo ctx R)
    (hGrows : ∀ p id s q s', R p id s q s' → s.Grows s')
    (id : SchemaId) :
    Sound ((Pattern.alt span ps).check ctx id) fun s q s' =>
      ∃ branches r,
        BranchesInTurn R id s.bindings ps s.registry branches r ∧
        BindAlike branches ∧
        q = .alt span (branches.map Prod.fst) ∧
        s' =
          { registry := r
            bindings :=
              s.bindings ++ (branches.head?.map Prod.snd).getD [] } := by
  refine Sound.current.bind fun st => ?_
  refine (sound_checkBranches h hGrows id st.bindings none).bind
    fun r => ?_
  dsimp only
  refine (Sound.resetBindings _).bind fun _ => ?_
  refine Sound.pure fun s s₂ hReset s₁ hBranches s₀ hState => ?_
  cases hReset
  rcases hState with ⟨rfl, rfl⟩
  rcases hBranches with ⟨branches, hBranches, rfl, hAlike⟩
  exact ⟨branches, _, hBranches, bindAlike_of_first hAlike, rfl, rfl⟩

/- The entries of a map pattern are for one type of values. -/
theorem sound_map
    (span : Span)
    {es : List (Literal × Pattern)}
    (h : ∀ e ∈ es, e.2.ChecksTo ctx R)
    (id : SchemaId) :
    Sound ((Pattern.map span es).check ctx id) fun s q s' =>
      ∃ key value entries,
        (s.pool.get id).key = some key ∧
        (s.pool.get id).value = some value ∧
        InTurn R (entryParts value es) s entries s' ∧
        q = .map span entries := by
  refine (Sound.schema id).bind fun t => ?_
  split
  · rename_i key value hKey hValue
    refine (sound_checkEntries key value h).bind fun entries => ?_
    refine Sound.pure fun s s₁ hEntries s₀ hSchema => ?_
    rcases hSchema with ⟨rfl, rfl⟩
    exact ⟨key, value, entries, hKey, hValue, hEntries, rfl⟩
  · exact Sound.reject span _

end Pattern

end MatchCompiler

------------------------------------------------------------
-- Patterns And Arms
------------------------------------------------------------

namespace MatchCompiler

namespace Pattern

variable {ctx : CheckContext}

/- If checking a pattern reports nothing, it is accepted. -/
def SoundCheck
    (ctx : CheckContext)
    (p : Pattern) : Prop :=
  ∀ id, Sound (p.check ctx id) fun s q s' =>
    Accepts ctx p id s q s' ∧ s.Grows s'

/- Checking without problems accepts a pattern. -/
theorem sound_check
    (p : Pattern) :
    SoundCheck ctx p := by
  induction p using partInduction with
  | wildcard span =>
      intro id
      exact Sound.pure fun s => ⟨.wildcard span id s, s.grows_refl⟩
  | bind span x =>
      intro id
      refine (Sound.bindName x id span).bind fun _ => ?_
      refine Sound.pure fun s s₀ hBound => ?_
      rcases hBound with ⟨hFresh, rfl⟩
      exact ⟨.bind span id hFresh, s₀.grows_add _⟩
  | named span x p ih =>
      intro id
      refine (ih id).bind fun q => ?_
      refine (Sound.bindName x id span).bind fun _ => ?_
      refine Sound.pure fun s s₁ hBound s₀ hAccepts => ?_
      rcases hBound with ⟨hFresh, rfl⟩
      exact ⟨.named hAccepts.1 hFresh,
        hAccepts.2.trans (s₁.grows_add _)⟩
  | literal span l =>
      intro id
      refine (Sound.literal ctx span id l).mono fun s q s' hAccepts => ?_
      rcases hAccepts with ⟨hAccepts, rfl⟩
      exact ⟨hAccepts, s'.grows_refl⟩
  | alt span ps ih =>
      intro id
      have hParts : ∀ p ∈ ps, p.ChecksTo ctx (AcceptedOutcome ctx) := ih
      refine (sound_alt span hParts (fun _ _ _ _ _ h => h.2) id).mono
        fun s q s' hOutcome => ?_
      rcases hOutcome with ⟨branches, r, hBranches, hAlike, rfl, rfl⟩
      exact ⟨.alt hBranches.accepts hAlike, List.prefix_append _ _⟩
  | guarded span p g ih =>
      intro id
      refine (ih id).bind fun q => ?_
      refine (Sound.guardNames span g).bind fun _ => ?_
      refine Sound.pure fun s s₁ hNames s₀ hAccepts => ?_
      rcases hNames with ⟨hUses, rfl⟩
      exact ⟨.guarded hAccepts.1 hUses, hAccepts.2⟩
  | constructor span h fs ps ihFields ihArgs =>
      intro id
      have hFields :
          ∀ f ∈ fs, f.2.ChecksTo ctx (AcceptedOutcome ctx) := ihFields
      have hArgs : ∀ p ∈ ps, p.ChecksTo ctx (AcceptedOutcome ctx) := ihArgs
      refine (sound_constructor span h hFields hArgs id).mono
        fun s q s' hOutcome => ?_
      cases hOutcome with
      | some hKind hElement hInner =>
          exact ⟨.some hKind hElement hInner.1, hInner.2⟩
      | someUnknown hKind => exact ⟨.someUnknown hKind, s.grows_refl⟩
      | none hKind => exact ⟨.none hKind, s.grows_refl⟩
      | object hKind hHead hSchema hCase hDisc hRest =>
          rcases hDisc.accepts with ⟨hDisc, hGrows₁⟩
          rcases hRest.accepts with ⟨hRest, hGrows₂⟩
          exact ⟨.object hKind hHead hSchema hCase hDisc hRest,
            hHead.grows.trans (hGrows₁.trans hGrows₂)⟩
  | seq span es ih =>
      intro id
      have hElements :
          ∀ e ∈ es, ∀ p ∈ e.pattern?,
            p.ChecksTo ctx (AcceptedOutcome ctx) := ih
      refine (sound_positional span hElements id).mono
        fun s q s' hOutcome => ?_
      cases hOutcome with
      | seq hOne hKind hElement hDefaults hFixed hItems hSpread =>
          rcases hItems.accepts with ⟨hItems, hGrows₁⟩
          rcases hSpread.accepts with ⟨hSpread, hGrows₂⟩
          exact ⟨.seq hOne hKind hElement hDefaults hFixed hItems hSpread,
            hGrows₁.trans hGrows₂⟩
      | tuple hKind _ _ hItems =>
          rcases hItems.accepts with ⟨hItems, hGrows⟩
          exact ⟨.tuple hKind hItems, hGrows⟩
  | typeTest span target =>
      intro id
      refine (Sound.typeTest ctx span id target).bind fun q => ?_
      refine Sound.pure fun s s₀ hTested => ?_
      rcases hTested with ⟨hTested, -, rfl⟩
      exact ⟨.typeTest hTested, List.prefix_refl _⟩
  | narrow span x target =>
      intro id
      refine (Sound.typeTest ctx span id target).bind fun q => ?_
      refine (Sound.bindName x q.2 span).bind fun _ => ?_
      refine Sound.pure fun s s₁ hBound s₀ hTested => ?_
      rcases hTested with ⟨hTested, hSlot, rfl⟩
      rcases hBound with ⟨hFresh, rfl⟩
      rw [hSlot]
      exact ⟨.narrow hTested hFresh, List.prefix_append _ _⟩
  | map span es ih =>
      intro id
      have hParts :
          ∀ e ∈ es, e.2.ChecksTo ctx (AcceptedOutcome ctx) := ih
      refine (sound_map span hParts id).mono fun s q s' hOutcome => ?_
      rcases hOutcome with ⟨key, value, entries, hKey, hValue, hEntries, rfl⟩
      rcases hEntries.accepts with ⟨hEntries, hGrows⟩
      exact ⟨.map hKey hValue hEntries, hGrows⟩
  | set span ls exact =>
      intro id
      refine (Sound.setPattern ctx span id ls exact).mono
        fun s q s' hAccepts => ?_
      rcases hAccepts with ⟨hAccepts, rfl⟩
      exact ⟨hAccepts, s'.grows_refl⟩

end Pattern

/- An arm is what a pattern is checked to without problems. -/
theorem run_of_checkArm
    {r r' : Registry}
    {ctx : CheckContext}
    {id : SchemaId}
    {p : Pattern}
    {arm : CheckedArm}
    (h : r.checkArm ctx id p = (r', .ok arm)) :
    (p.check ctx id).run { registry := r } =
      (arm.pattern, { registry := r', bindings := arm.bindings }) := by
  unfold Registry.checkArm at h
  cases hRun : (p.check ctx id).run { registry := r } with
  | mk q s =>
      rw [hRun] at h
      dsimp only at h
      split at h
      · rename_i hEmpty
        rw [List.isEmpty_iff] at hEmpty
        cases h
        rw [← hEmpty]
      · cases h

/- An arm that is checked successfully is accepted. -/
theorem accepts_of_checkArm
    {r r' : Registry}
    {ctx : CheckContext}
    {id : SchemaId}
    {p : Pattern}
    {arm : CheckedArm}
    (h : r.checkArm ctx id p = (r', .ok arm)) :
    Accepts ctx p id { registry := r, bindings := [] } arm.pattern
      { registry := r', bindings := arm.bindings } := by
  have hSound : p.SoundCheck ctx := Pattern.sound_check p
  exact ((hSound id).of_run (run_of_checkArm h) rfl).1

end MatchCompiler
