import MatchCompiler.Proofs.PartTyping
import MatchCompiler.Proofs.SlotBounds

/-
  This file shows that accepting a pattern does nothing to
  the registry but use it.

  Parts of a pattern are accepted one after the other, and
  each may make the registry grow. What was in the pool when
  a pattern was met is still there, unchanged, when its last
  part is accepted, so that facts about the slots of a node
  hold wherever a part of it is checked. This needs nothing
  to be known of the types, only that the registry is settled
  and that the slots are slots of its pool.

  Key definitions include:
    * `AcceptedSince`

  Key theorems include:
    * `Accepts.later`
    * `InTurn.acceptedBetween`
    * `AcceptsAll.acceptedSince`
    * `AcceptedSince.madeOf`
-/

------------------------------------------------------------
-- Slots Of Parts
------------------------------------------------------------

namespace MatchCompiler

namespace Schema

variable {s : Schema}
variable {n : Nat}

/- The discriminator's part is checked against a slot. -/
theorem Within.discriminatorParts
    (h : s.Within n)
    (fields : List (FieldName × Pattern)) :
    ∀ part ∈ s.discriminatorParts fields, part.2.1 < n := by
  intro part hPart
  rcases Schema.exists_discriminator_of_mem hPart with
    ⟨d, hDisc, -, hSlot⟩
  rw [hSlot]
  exact h.discriminator d hDisc

/- So is every other part. -/
theorem Within.otherParts
    (h : s.Within n)
    (pinned : Option (List Member))
    (fields : List (FieldName × Pattern))
    (args : List Pattern) :
    ∀ part ∈ s.namedParts pinned fields ++ s.unnamedParts pinned args,
      part.2.1 < n := by
  intro part hPart
  rcases List.mem_append.mp hPart with hPart | hPart
  · rcases List.mem_filterMap.mp hPart with ⟨given, -, hGiven⟩
    unfold Schema.namedPart? at hGiven
    split at hGiven
    · cases hGiven
    · split at hGiven
      · rename_i f hReadable
        cases hGiven
        exact h.readable hReadable
      · cases hGiven
  · unfold Schema.unnamedParts at hPart
    rw [← List.map_uncurry_zip_eq_zipWith] at hPart
    rcases List.mem_map.mp hPart with ⟨⟨p, f⟩, hMem, rfl⟩
    exact h.positionalFields pinned f (List.of_mem_zip hMem).2

end Schema

end MatchCompiler

------------------------------------------------------------
-- Accepting Only Uses The Registry
------------------------------------------------------------

namespace MatchCompiler

open Registry (use_schemaWithin)

variable {ctx : CheckContext}

/- Extracting a schema is a use. -/
theorem Progress.later_extract
    (s : Progress)
    (ctx : CheckContext)
    (id : DescriptorId) :
    s.registry.Later (s.extract ctx id).1.registry :=
  .single ⟨_, use_schemaWithin s.registry ctx.table ctx.depth id⟩

/- Resolving a head only uses the registry. -/
theorem HeadMeans.later
    {scrutinee : SchemaId}
    {head : ConstructorHead}
    {resolved : ResolvedHead}
    {s s' : Progress}
    (h : HeadMeans ctx scrutinee head s resolved s') :
    s.registry.Later s'.registry := by
  cases h with
  | own => exact .refl
  | base => exact s.later_extract ctx _
  | derived => exact s.later_extract ctx _

/- What a head names has a slot, if the scrutinee has one. -/
theorem HeadMeans.target_lt
    {scrutinee : SchemaId}
    {head : ConstructorHead}
    {resolved : ResolvedHead}
    {s s' : Progress}
    (h : HeadMeans ctx scrutinee head s resolved s')
    (hs : s.registry.Settled)
    (hSlot : scrutinee < s.pool.size) :
    resolved.target < s'.pool.size := by
  cases h with
  | own => exact hSlot
  | base =>
      exact ((use_schemaWithin s.registry ctx.table ctx.depth _).settled
        hs).2
  | derived =>
      exact ((use_schemaWithin s.registry ctx.table ctx.depth _).settled
        hs).2

/- The schema that a head names mentions slots. -/
theorem HeadMeans.target_within
    {scrutinee : SchemaId}
    {head : ConstructorHead}
    {resolved : ResolvedHead}
    {s s' : Progress}
    (h : HeadMeans ctx scrutinee head s resolved s')
    (hs : s.registry.Settled) :
    (s'.pool.get resolved.target).Within s'.pool.size :=
  (h.later.settled hs).1.closed.pool.slots resolved.target

mutual

/- Accepting a pattern at a slot only uses the registry. -/
theorem Accepts.later
    {p : Pattern}
    {id : SchemaId}
    {s s' : Progress}
    {q : Checked}
    (h : Accepts ctx p id s q s')
    (hs : s.registry.Settled)
    (hId : id < s.pool.size) :
    s.registry.Later s'.registry := by
  have hOwn := hs.closed.pool.slots id
  match h with
  | .wildcard _ _ _ => exact .refl
  | .bind _ _ _ => exact .refl
  | .named hInner _ => exact hInner.later hs hId
  | .literal _ => exact .refl
  | .alt hBranches _ => exact hBranches.later hs hId
  | .guarded hInner _ => exact hInner.later hs hId
  | .some _ hElement hInner =>
      exact hInner.later hs (hOwn.element _ hElement)
  | .someUnknown _ => exact .refl
  | .none _ => exact .refl
  | .object _ hHead hSchema _ hDisc hRest =>
      have hLater₁ := hHead.later
      have hs₁ := (hLater₁.settled hs).1
      have hTarget := hHead.target_within hs
      rw [hSchema] at hTarget
      have hLater₂ := hDisc.later hs₁ (hTarget.discriminatorParts _)
      rcases hLater₂.settled hs₁ with ⟨hs₂, hGrows⟩
      have hLater₃ := hRest.later hs₂
        ((hTarget.mono hGrows.pool.size_le).otherParts _ _ _)
      exact hLater₁.trans (hLater₂.trans hLater₃)
  | .seq _ _ hElement _ _ hItems hSpread =>
      have hLt := hOwn.element _ hElement
      have hLater₁ := hItems.later hs fun part hPart =>
        (SeqElement.exists_of_mem_itemParts hPart).2 ▸ hLt
      rcases hLater₁.settled hs with ⟨hs₁, hGrows⟩
      exact hLater₁.trans
        (hSpread.later hs₁ (hLt.trans_le hGrows.pool.size_le))
  | .tuple _ hItems =>
      refine hItems.later hs fun part hPart => ?_
      rcases SeqElement.exists_field_of_mem_tupleParts hPart with
        ⟨f, hField, -, hSlot⟩
      exact hSlot ▸ hOwn.fields f hField
  | .typeTest _ => exact s.later_extract ctx _
  | .narrow _ _ => exact s.later_extract ctx _
  | .map _ hValue hEntries =>
      refine hEntries.later hs fun part hPart => ?_
      rcases List.mem_map.mp hPart with ⟨entry, -, rfl⟩
      exact hOwn.value _ hValue
  | .set _ _ _ => exact .refl
termination_by structural h

/- So does accepting parts in turn. -/
theorem AcceptsAll.later
    {α : Type}
    {parts : List (α × SchemaId × Pattern)}
    {qs : List (α × Checked)}
    {s s' : Progress}
    (h : AcceptsAll ctx parts s qs s')
    (hs : s.registry.Settled)
    (hSlots : ∀ part ∈ parts, part.2.1 < s.pool.size) :
    s.registry.Later s'.registry := by
  match h with
  | .nil _ => exact .refl
  | .cons hHead hTail =>
      rcases List.forall_mem_cons.mp hSlots with ⟨hSlot, hSlots⟩
      have hLater := hHead.later hs hSlot
      rcases hLater.settled hs with ⟨hs₁, hGrows⟩
      exact hLater.trans (hTail.later hs₁ fun part hPart =>
        (hSlots part hPart).trans_le hGrows.pool.size_le)
termination_by structural h

theorem AcceptsBranches.later
    {id : SchemaId}
    {before : List Binding}
    {ps : List Pattern}
    {branches : List (Checked × List Binding)}
    {r r' : Registry}
    (h : AcceptsBranches ctx id before ps r branches r')
    (hs : r.Settled)
    (hId : id < r.pool.size) :
    r.Later r' := by
  match h with
  | .nil _ _ _ => exact .refl
  | .cons hHead hTail =>
      have hLater := hHead.later hs hId
      rcases hLater.settled hs with ⟨hs₁, hGrows⟩
      exact hLater.trans
        (hTail.later hs₁ (hId.trans_le hGrows.pool.size_le))
termination_by structural h

theorem AcceptsSpread.later
    {element : SchemaId}
    {p : Option Pattern}
    {s s' : Progress}
    {q : Option Checked}
    (h : AcceptsSpread ctx element p s q s')
    (hs : s.registry.Settled)
    (hElement : element < s.pool.size) :
    s.registry.Later s'.registry := by
  match h with
  | .none _ _ => exact .refl
  | .some hInner =>
      have hUse : s.registry.Use (s.sequenceOf element).1.registry
          (s.sequenceOf element).2 := .sequenceOf hElement
      rcases hUse.settled hs with ⟨hs₁, hSlot⟩
      exact .head ⟨_, hUse⟩ (hInner.later hs₁ hSlot)
termination_by structural h

end

end MatchCompiler

------------------------------------------------------------
-- Parts That Are Accepted Later
------------------------------------------------------------

namespace MatchCompiler

/-
  A pattern is accepted at a slot by a registry that has only
  been used since it was a given one.
-/
def AcceptedSince
    (ctx : CheckContext)
    (r : Registry)
    (p : Pattern)
    (id : SchemaId)
    (q : Checked) : Prop :=
  ∃ s s', r.Later s.registry ∧ Accepts ctx p id s q s'

variable {ctx : CheckContext}
variable {r r' : Registry}

theorem AcceptedSince.of_later
    {p : Pattern}
    {id : SchemaId}
    {q : Checked}
    (h : AcceptedSince ctx r' p id q)
    (hLater : r.Later r') :
    AcceptedSince ctx r p id q := by
  rcases h with ⟨s, s', hMore, hAccepts⟩
  exact ⟨s, s', hLater.trans hMore, hAccepts⟩

/-
  A pattern is accepted like that, and what it binds is still
  bound when checking has come further.
-/
def AcceptedBetween
    (ctx : CheckContext)
    (r : Registry)
    (t : Progress)
    (p : Pattern)
    (id : SchemaId)
    (q : Checked) : Prop :=
  ∃ s s', r.Later s.registry ∧ Accepts ctx p id s q s' ∧ s'.Grows t

theorem AcceptedBetween.since
    {t : Progress}
    {p : Pattern}
    {id : SchemaId}
    {q : Checked}
    (h : AcceptedBetween ctx r t p id q) :
    AcceptedSince ctx r p id q := by
  rcases h with ⟨s, s', hLater, hAccepts, -⟩
  exact ⟨s, s', hLater, hAccepts⟩

theorem AcceptedBetween.of_later
    {t : Progress}
    {p : Pattern}
    {id : SchemaId}
    {q : Checked}
    (h : AcceptedBetween ctx r' t p id q)
    (hLater : r.Later r') :
    AcceptedBetween ctx r t p id q := by
  rcases h with ⟨s, s', hMore, hAccepts, hGrows⟩
  exact ⟨s, s', hLater.trans hMore, hAccepts, hGrows⟩

/- Every part is accepted, with the slots that were there. -/
theorem InTurn.acceptedBetween
    {α : Type}
    {parts : List (α × SchemaId × Pattern)}
    {qs : List (α × Checked)}
    {s s' t : Progress}
    (h : InTurn (AcceptedOutcome ctx) parts s qs s')
    (hs : s.registry.Settled)
    (hSlots : ∀ part ∈ parts, part.2.1 < s.pool.size)
    (hGrows : s'.Grows t) :
    List.Forall₂
      (fun part q => q.1 = part.1 ∧
        AcceptedBetween ctx s.registry t part.2.2 part.2.1 q.2)
      parts qs := by
  induction h with
  | nil s => exact .nil
  | @cons _ id p q parts qs s s₁ s₂ hHead hTail ih =>
      rcases List.forall_mem_cons.mp hSlots with ⟨hSlot, hSlots⟩
      have hLater := hHead.1.later hs hSlot
      rcases hLater.settled hs with ⟨hs₁, hMore⟩
      have hRest := ih hs₁
        (fun part hPart => (hSlots part hPart).trans_le hMore.pool.size_le)
        hGrows
      refine .cons ⟨rfl, s, s₁, .refl, hHead.1, ?_⟩ (hRest.imp ?_)
      · exact hTail.accepts.2.trans hGrows
      · rintro part q' ⟨hSame, s₃, s₄, hSince, hAccepts, hBefore⟩
        exact ⟨hSame, s₃, s₄, hLater.trans hSince, hAccepts, hBefore⟩

/- The same, if what they bind is of no matter. -/
theorem AcceptsAll.acceptedSince
    {α : Type}
    {parts : List (α × SchemaId × Pattern)}
    {qs : List (α × Checked)}
    {s s' : Progress}
    (h : AcceptsAll ctx parts s qs s')
    (hs : s.registry.Settled)
    (hSlots : ∀ part ∈ parts, part.2.1 < s.pool.size) :
    List.Forall₂
      (fun part q => q.1 = part.1 ∧
        AcceptedSince ctx s.registry part.2.2 part.2.1 q.2)
      parts qs := by
  induction parts generalizing qs s with
  | nil =>
      cases h
      exact .nil
  | cons part parts ih =>
      cases h with
      | cons hHead hTail =>
          rcases List.forall_mem_cons.mp hSlots with ⟨hSlot, hSlots⟩
          have hLater := hHead.later hs hSlot
          rcases hLater.settled hs with ⟨hs₁, hMore⟩
          have hRest := ih hTail hs₁ fun part hPart =>
            (hSlots part hPart).trans_le hMore.pool.size_le
          refine .cons ⟨rfl, s, _, .refl, hHead⟩ (hRest.imp ?_)
          exact fun part q hPart => ⟨hPart.1, hPart.2.of_later hLater⟩

/- So is every branch. -/
theorem AcceptsBranches.exists_acceptedSince
    {id : SchemaId}
    {before : List Binding}
    {ps : List Pattern}
    {branches : List (Checked × List Binding)}
    (h : AcceptsBranches ctx id before ps r branches r')
    (hs : r.Settled)
    (hId : id < r.pool.size)
    {b : Checked × List Binding}
    (hMem : b ∈ branches) :
    ∃ p ∈ ps, AcceptedSince ctx r p id b.1 := by
  induction ps generalizing r branches with
  | nil =>
      cases h
      cases hMem
  | cons p ps ih =>
      cases h with
      | cons hHead hTail =>
          rcases List.mem_cons.mp hMem with rfl | hMem
          · exact ⟨p, List.mem_cons_self, ⟨r, before⟩, _, .refl, hHead⟩
          · have hLater := hHead.later hs hId
            rcases hLater.settled hs with ⟨hs₁, hGrows⟩
            rcases ih hTail hs₁ (hId.trans_le hGrows.pool.size_le) hMem
              with ⟨p', hp', hAccepted⟩
            exact ⟨p', List.mem_cons_of_mem _ hp',
              hAccepted.of_later hLater⟩

/-
  A pattern is made of nodes that are accepted at the slot of
  the pattern.
-/
theorem AcceptedSince.madeOf
    {p : Pattern}
    {id : SchemaId}
    {q : Checked}
    {N : Checked → Prop}
    (hs : r.Settled)
    (hId : id < r.pool.size)
    (h : AcceptedSince ctx r p id q)
    (hNodes :
      ∀ p' q', AcceptedSince ctx r p' id q' → p'.IsNode → N q') :
    q.MadeOf N := by
  induction p using Pattern.partInduction generalizing q with
  | bind span x =>
      rcases h with ⟨s, s', hLater, hAccepts⟩
      cases hAccepts with
      | bind =>
          exact .bind span x (.node (hNodes (.wildcard span) _
            ⟨s, s, hLater, .wildcard span id s⟩ trivial))
  | narrow span x target =>
      rcases h with ⟨s, s', hLater, hAccepts⟩
      cases hAccepts with
      | narrow hTested =>
          exact .bind span x (.node (hNodes (.typeTest span target) _
            ⟨s, _, hLater, .typeTest hTested⟩ trivial))
  | named span x p ih =>
      rcases h with ⟨s, s', hLater, hAccepts⟩
      cases hAccepts with
      | named hInner => exact .bind span x (ih ⟨s, _, hLater, hInner⟩)
  | guarded span p g ih =>
      rcases h with ⟨s, s', hLater, hAccepts⟩
      cases hAccepts with
      | guarded hInner =>
          exact .guarded span g.id (ih ⟨s, _, hLater, hInner⟩)
  | alt span ps ih =>
      rcases h with ⟨s, s', hLater, hAccepts⟩
      cases hAccepts with
      | alt hBranches =>
          refine .alt span fun q hq => ?_
          rcases List.mem_map.mp hq with ⟨b, hb, rfl⟩
          rcases hLater.settled hs with ⟨hs', hGrows⟩
          rcases hBranches.exists_acceptedSince hs'
              (hId.trans_le hGrows.pool.size_le) hb with
            ⟨p, hp, hAccepted⟩
          exact ih p hp (hAccepted.of_later hLater)
  | wildcard span => exact .node (hNodes _ q h trivial)
  | literal span l => exact .node (hNodes _ q h trivial)
  | constructor span head fs ps => exact .node (hNodes _ q h trivial)
  | seq span es => exact .node (hNodes _ q h trivial)
  | typeTest span target => exact .node (hNodes _ q h trivial)
  | map span es => exact .node (hNodes _ q h trivial)
  | set span ls exact => exact .node (hNodes _ q h trivial)

end MatchCompiler
