import MatchCompiler.Proofs.Views

/-
  This file shows where aliases and references lead.

  Opening aliases leads to the end of the chain of aliases,
  and unwrapping to the end of the chain of aliases and
  references, as long as the chain does not return to a slot.
  The number of slots is a bound on the steps that is high
  enough: the slots that are left behind differ from one
  another and from the slot that is reached.

  Where every slot is plain or a view, the end is plain, and
  the chain is not longer than the pool.

  Key definitions include:
    * `EndsAt`
    * `SchemaPool.AliasOf`
    * `SchemaPool.LeftBehind`
    * `SchemaPool.Chain`
    * `SchemaPool.ComesTo`

  Key theorems include:
    * `SchemaPool.LeftBehind.step`
    * `SchemaPool.canonical_endsAt`
    * `SchemaPool.unwrap_endsAt`
    * `SchemaPool.Chain.length_le`
    * `SchemaPool.ComesTo.unwrap_eq`
    * `SchemaPool.exists_comesTo`
-/

------------------------------------------------------------
-- Ends Of Chains
------------------------------------------------------------

namespace MatchCompiler

/-
  The first slot on a chain of steps from which there is no
  step.
-/
def EndsAt
    (step : SchemaId → SchemaId → Prop)
    (a c : SchemaId) : Prop :=
  Relation.ReflTransGen step a c ∧ ∀ b, ¬ step c b

/- If every slot has one step at most, there is one end. -/
theorem EndsAt.unique
    {step : SchemaId → SchemaId → Prop}
    {a c d : SchemaId}
    (hUnique : Relator.RightUnique step)
    (h : EndsAt step a c)
    (h' : EndsAt step a d) :
    c = d := by
  rcases Relation.ReflTransGen.total_of_right_unique hUnique h.1 h'.1 with
    hPath | hPath
  · rcases hPath.cases_head with hSame | ⟨b, hStep, -⟩
    · exact hSame
    · exact absurd hStep (h.2 b)
  · rcases hPath.cases_head with hSame | ⟨b, hStep, -⟩
    · exact hSame.symm
    · exact absurd hStep (h'.2 b)

namespace SchemaPool

/- An alias that has a target, and its target. -/
def AliasOf
    (p : SchemaPool)
    (slot source : SchemaId) : Prop :=
  (p.get slot).aliasName.isSome = true ∧
  (p.get slot).target = some source

variable {p : SchemaPool}
variable {a b : SchemaId}

theorem AliasOf.links
    (h : p.AliasOf a b) :
    p.Links a b :=
  ⟨h.2, .inl h.1⟩

theorem rightUnique_links
    (p : SchemaPool) :
    Relator.RightUnique p.Links :=
  fun _ _ _ h h' => h.unique h'

/- What a grounded slot leads to is grounded. -/
theorem Grounded.of_path
    (h : p.Grounded a)
    (hPath : Relation.ReflTransGen p.Links a b) :
    p.Grounded b :=
  fun source hRest => h source (hPath.trans hRest)

/- A slot that is grounded does not show itself. -/
theorem Grounded.ne_of_links
    (h : p.Grounded a)
    (hLinks : p.Links a b) :
    b ≠ a := by
  intro hSame
  rw [hSame] at hLinks
  exact h a .refl (.single hLinks)

end SchemaPool

end MatchCompiler

------------------------------------------------------------
-- Slots Left Behind
------------------------------------------------------------

namespace MatchCompiler

namespace SchemaPool

/- Slots of a pool, all different, that lead to a slot. -/
structure LeftBehind
    (p : SchemaPool)
    (trail : List SchemaId)
    (a : SchemaId) : Prop where
  nodup : trail.Nodup
  lt : ∀ slot ∈ trail, slot < p.size
  leads : ∀ slot ∈ trail, Relation.TransGen p.Links slot a

variable {p : SchemaPool}
variable {trail : List SchemaId}
variable {a b : SchemaId}

/- Slots that all differ are not more than the pool has. -/
theorem length_le_size
    {slots : List SchemaId}
    (hNodup : slots.Nodup)
    (hLt : ∀ slot ∈ slots, slot < p.size) :
    slots.length ≤ p.size := by
  have hRange : slots ⊆ List.range p.size :=
    fun slot hMem => List.mem_range.mpr (hLt slot hMem)
  simpa using (hNodup.subperm hRange).length_le

namespace LeftBehind

theorem start
    (p : SchemaPool)
    (a : SchemaId) :
    p.LeftBehind [] a :=
  ⟨List.nodup_nil, nofun, nofun⟩

/- Going on leaves a slot behind that was not yet there. -/
theorem step
    (h : p.LeftBehind trail a)
    (hGrounded : p.Grounded a)
    (hPath : Relation.TransGen p.Links a b) :
    p.LeftBehind (a :: trail) b := by
  have hNew : a ∉ trail := by
    intro hMem
    exact hGrounded a .refl (h.leads a hMem)
  have hLt : a < p.size := by
    rcases Relation.TransGen.head'_iff.mp hPath with ⟨next, hLinks, -⟩
    exact hLinks.lt
  refine ⟨List.nodup_cons.mpr ⟨hNew, h.nodup⟩, ?_, ?_⟩
  · intro slot hMem
    rcases List.mem_cons.mp hMem with hSame | hMem
    · rw [hSame]
      exact hLt
    · exact h.lt slot hMem
  · intro slot hMem
    rcases List.mem_cons.mp hMem with hSame | hMem
    · rw [hSame]
      exact hPath
    · exact (h.leads slot hMem).trans hPath

/- If as many slots are left behind as there are, that is all. -/
theorem not_links
    (h : p.LeftBehind trail a)
    (hGrounded : p.Grounded a)
    (hAll : p.size ≤ trail.length) :
    ¬ p.Links a b := by
  intro hLinks
  have hNext := h.step hGrounded (.single hLinks)
  have hLonger := length_le_size hNext.nodup hNext.lt
  rw [List.length_cons] at hLonger
  omega

end LeftBehind

end SchemaPool

end MatchCompiler

------------------------------------------------------------
-- Opening Aliases
------------------------------------------------------------

namespace MatchCompiler

namespace SchemaPool

variable {p : SchemaPool}
variable {trail : List SchemaId}
variable {fuel : Nat}
variable {a b : SchemaId}

/- Where there is no alias to open nothing happens. -/
theorem canonical_of_end
    (h : ∀ b, ¬ p.AliasOf a b) :
    p.canonical a = a := by
  unfold canonical
  cases p.size with
  | zero => rfl
  | succ fuel =>
      unfold follow
      cases hTarget : (p.get a).target with
      | none => rfl
      | some b =>
          have hOther : (p.get a).aliasName.isSome = false := by
            rw [← Bool.not_eq_true]
            exact fun hAlias => h b ⟨hAlias, hTarget⟩
          simp [hOther]

/- Aliases are opened one by one. -/
theorem follow_endsAt
    (hTrail : p.LeftBehind trail a)
    (hGrounded : p.Grounded a)
    (hFuel : p.size ≤ fuel + trail.length) :
    EndsAt p.AliasOf a
      (p.follow (fun s => s.aliasName.isSome) fuel a) := by
  induction fuel generalizing trail a with
  | zero =>
      rw [Nat.zero_add] at hFuel
      refine ⟨.refl, fun b hAlias => ?_⟩
      exact hTrail.not_links hGrounded hFuel hAlias.links
  | succ fuel ih =>
      unfold follow
      cases hTarget : (p.get a).target with
      | none =>
          refine ⟨.refl, fun b hAlias => ?_⟩
          rw [hAlias.2] at hTarget
          cases hTarget
      | some b =>
          by_cases hName : (p.get a).aliasName.isSome = true
          · have hAlias : p.AliasOf a b := ⟨hName, hTarget⟩
            have hNe := hGrounded.ne_of_links hAlias.links
            have hRest := ih
              (hTrail.step hGrounded (.single hAlias.links))
              (hGrounded.of_path (.single hAlias.links))
              (by rw [List.length_cons]; omega)
            simp only [hName, hNe, bne_iff_ne, ne_eq, not_false_eq_true,
              Bool.true_and, if_true]
            exact ⟨.head hAlias hRest.1, hRest.2⟩
          · simp only [hName, Bool.false_and, Bool.false_eq_true, if_false]
            exact ⟨.refl, fun c hAlias => hName hAlias.1⟩

theorem canonical_endsAt
    (hGrounded : p.Grounded a) :
    EndsAt p.AliasOf a (p.canonical a) :=
  follow_endsAt (.start p a) hGrounded (Nat.le_add_right _ _)

theorem path_canonical
    (hGrounded : p.Grounded a) :
    Relation.ReflTransGen p.Links a (p.canonical a) :=
  Relation.ReflTransGen.mono (fun _ _ => AliasOf.links) _ _
    (canonical_endsAt hGrounded).1

end SchemaPool

end MatchCompiler

------------------------------------------------------------
-- Following References
------------------------------------------------------------

namespace MatchCompiler

namespace SchemaPool

variable {p : SchemaPool}
variable {trail : List SchemaId}
variable {fuel : Nat}
variable {a b : SchemaId}

/- Where there is nothing to follow nothing happens. -/
theorem followReferences_of_end
    (h : ∀ b, ¬ p.Links a b)
    (fuel : Nat) :
    p.followReferences fuel a = a := by
  cases fuel with
  | zero => rfl
  | succ fuel =>
      unfold followReferences
      cases hTarget : (p.get a).target with
      | none => rfl
      | some b =>
          have hOther : (p.get a).isReference = false := by
            rw [← Bool.not_eq_true]
            intro hReference
            exact h b ⟨hTarget, .inr (beq_iff_eq.mp hReference)⟩
          simp [hOther]

/-
  References are followed one by one, and each time the
  aliases behind them are opened. An alias that is a copy of a
  reference has been opened before its kind is looked at.
-/
theorem followReferences_endsAt
    (hTrail : p.LeftBehind trail a)
    (hGrounded : p.Grounded a)
    (hOpened : ∀ b, ¬ p.AliasOf a b)
    (hFuel : p.size ≤ fuel + trail.length) :
    EndsAt p.Links a (p.followReferences fuel a) := by
  induction fuel generalizing trail a with
  | zero =>
      rw [Nat.zero_add] at hFuel
      exact ⟨.refl, fun b => hTrail.not_links hGrounded hFuel⟩
  | succ fuel ih =>
      by_cases hLinks : ∃ b, p.Links a b
      · rcases hLinks with ⟨b, hLinks⟩
        have hReference : (p.get a).isReference = true := by
          rcases hLinks.marked with hAlias | hKind
          · exact absurd ⟨hAlias, hLinks.target⟩ (hOpened b)
          · exact beq_iff_eq.mpr hKind
        have hNe := hGrounded.ne_of_links hLinks
        have hBehind := hGrounded.of_path (.single hLinks)
        have hPath : Relation.TransGen p.Links a (p.canonical b) :=
          .head' hLinks (path_canonical hBehind)
        have hRest := ih (hTrail.step hGrounded hPath)
          (hGrounded.of_path hPath.to_reflTransGen)
          (canonical_endsAt hBehind).2
          (by rw [List.length_cons]; omega)
        have hNext :
            p.followReferences (fuel + 1) a =
              p.followReferences fuel (p.canonical b) := by
          simp [followReferences, hLinks.target, hReference, hNe]
        rw [hNext]
        exact ⟨hPath.to_reflTransGen.trans hRest.1, hRest.2⟩
      · rw [not_exists] at hLinks
        rw [followReferences_of_end hLinks]
        exact ⟨.refl, hLinks⟩

theorem unwrap_endsAt
    (hGrounded : p.Grounded a) :
    EndsAt p.Links a (p.unwrap a) := by
  have hPath := path_canonical hGrounded
  have hRest : EndsAt p.Links (p.canonical a) (p.unwrap a) :=
    followReferences_endsAt (.start p _) (hGrounded.of_path hPath)
      (canonical_endsAt hGrounded).2 (Nat.le_add_right _ _)
  exact ⟨hPath.trans hRest.1, hRest.2⟩

theorem unwrap_of_end
    (h : ∀ b, ¬ p.Links a b) :
    p.unwrap a = a := by
  have hOpened : ∀ b, ¬ p.AliasOf a b :=
    fun b hAlias => h b hAlias.links
  unfold unwrap
  rw [canonical_of_end hOpened, followReferences_of_end h]

end SchemaPool

end MatchCompiler

------------------------------------------------------------
-- Chains
------------------------------------------------------------

namespace MatchCompiler

namespace SchemaPool

/- A number of views, each shown by the one before. -/
inductive Chain
    (p : SchemaPool) : Nat → SchemaId → SchemaId → Prop
| done
    {a : SchemaId}
    (hPlain : (p.get a).IsPlain) :
    Chain p 0 a a
| step
    {n : Nat}
    {a b c : SchemaId}
    (hLinks : p.Links a b)
    (hRest : Chain p n b c) :
    Chain p (n + 1) a c

/- What a slot comes to when all views are opened. -/
def ComesTo
    (p : SchemaPool)
    (a c : SchemaId) : Prop :=
  ∃ n, p.Chain n a c

variable {p : SchemaPool}
variable {n m : Nat}
variable {a b c d : SchemaId}

namespace Chain

theorem unique
    (h : p.Chain n a c)
    (h' : p.Chain m a d) :
    n = m ∧ c = d := by
  induction h generalizing m with
  | done hPlain =>
      cases h' with
      | done => exact ⟨rfl, rfl⟩
      | step hLinks => exact absurd hLinks (not_links_of_isPlain hPlain)
  | step hLinks _ ih =>
      cases h' with
      | done hPlain => exact absurd hLinks (not_links_of_isPlain hPlain)
      | step hLinks' hRest' =>
          cases hLinks.unique hLinks'
          rcases ih hRest' with ⟨rfl, rfl⟩
          exact ⟨rfl, rfl⟩

theorem isPlain
    (h : p.Chain n a c) :
    (p.get c).IsPlain := by
  induction h with
  | done hPlain => exact hPlain
  | step _ _ ih => exact ih

theorem reaches
    (h : p.Chain n a c) :
    Relation.ReflTransGen p.Links a c := by
  induction h with
  | done => exact .refl
  | step hLinks _ ih => exact .head hLinks ih

/-
  The views of a chain, which differ as they are at different
  distances from its end.
-/
theorem exists_views
    (h : p.Chain n a c) :
    ∃ l : List SchemaId, l.length = n ∧ l.Nodup ∧
      ∀ s ∈ l, s < p.size ∧ ∃ m ≤ n, p.Chain m s c := by
  induction h with
  | done => exact ⟨[], rfl, List.nodup_nil, nofun⟩
  | @step n a b c hLinks hRest ih =>
      rcases ih with ⟨l, hLength, hNodup, hViews⟩
      have hWhole := Chain.step hLinks hRest
      refine ⟨a :: l, by rw [List.length_cons, hLength],
        List.nodup_cons.mpr ⟨fun hMem => ?_, hNodup⟩, fun s hs => ?_⟩
      · rcases (hViews a hMem).2 with ⟨m, hm, hShorter⟩
        have hSame := (hWhole.unique hShorter).1
        omega
      · rcases List.mem_cons.mp hs with rfl | hs
        · exact ⟨hLinks.lt, n + 1, Nat.le_refl _, hWhole⟩
        · rcases hViews s hs with ⟨hLt, m, hm, hChain⟩
          exact ⟨hLt, m, Nat.le_succ_of_le hm, hChain⟩

/- A chain is not longer than the pool. -/
theorem length_le
    (h : p.Chain n a c) :
    n ≤ p.size := by
  rcases h.exists_views with ⟨l, rfl, hNodup, hViews⟩
  exact length_le_size hNodup fun s hs => (hViews s hs).1

end Chain

theorem ComesTo.unique
    (h : p.ComesTo a c)
    (h' : p.ComesTo a d) :
    c = d := by
  rcases h with ⟨n, h⟩
  rcases h' with ⟨m, h'⟩
  exact (h.unique h').2

theorem ComesTo.isPlain
    (h : p.ComesTo a c) :
    (p.get c).IsPlain := by
  rcases h with ⟨n, h⟩
  exact h.isPlain

theorem ComesTo.reaches
    (h : p.ComesTo a c) :
    Relation.ReflTransGen p.Links a c := by
  rcases h with ⟨n, h⟩
  exact h.reaches

/- What a path leads to, if it is plain. -/
theorem ComesTo.of_path
    (hPlain : (p.get c).IsPlain)
    (hPath : Relation.ReflTransGen p.Links a c) :
    p.ComesTo a c := by
  induction hPath using Relation.ReflTransGen.head_induction_on with
  | refl => exact ⟨0, .done hPlain⟩
  | head hLinks _ ih =>
      rcases ih with ⟨n, hRest⟩
      exact ⟨n + 1, .step hLinks hRest⟩

/- A chain that ends does not go round in a circle. -/
theorem Chain.grounded
    (h : p.Chain n a c) :
    p.Grounded a := by
  induction h with
  | done hPlain =>
      intro source hPath hCircle
      have hNone := fun b => not_links_of_isPlain (b := b) hPlain
      rcases hPath.cases_head with hSame | ⟨next, hLinks, -⟩
      · rw [← hSame] at hCircle
        rcases Relation.TransGen.head'_iff.mp hCircle with ⟨next, hLinks, -⟩
        exact hNone next hLinks
      · exact hNone next hLinks
  | step hLinks _ ih => exact hLinks.grounded_iff.mpr ih

/- Unwrapping gives what a slot comes to. -/
theorem ComesTo.unwrap_eq
    (h : p.ComesTo a c) :
    p.unwrap a = c := by
  rcases h with ⟨n, h⟩
  have hEnd : EndsAt p.Links a c :=
    ⟨h.reaches, fun _ => not_links_of_isPlain h.isPlain⟩
  exact (unwrap_endsAt h.grounded).unique p.rightUnique_links hEnd

/-
  A slot comes to a plain one if the views behind it do not
  go round in a circle.
-/
theorem exists_comesTo
    (hShown :
      ∀ slot, (p.get slot).IsPlain ∨ ∃ source, p.Links slot source)
    {a : SchemaId}
    (hGrounded : p.Grounded a) :
    ∃ c, p.ComesTo a c := by
  have hEnd := unwrap_endsAt hGrounded
  rcases hShown (p.unwrap a) with hPlain | ⟨source, hLinks⟩
  · exact ⟨p.unwrap a, .of_path hPlain hEnd.1⟩
  · exact absurd hLinks (hEnd.2 source)

end SchemaPool

end MatchCompiler

------------------------------------------------------------
-- What Unwrapping Keeps
------------------------------------------------------------

namespace MatchCompiler

namespace SchemaPool

variable {p : SchemaPool}
variable {P : SchemaId → Prop}
variable (hStep : ∀ a b, P a → (p.get a).target = some b → P b)

include hStep

theorem follow_keeps
    (through : Schema → Bool)
    (fuel : Nat)
    {a : SchemaId}
    (h : P a) :
    P (p.follow through fuel a) := by
  induction fuel generalizing a with
  | zero => exact h
  | succ fuel ih =>
      unfold follow
      cases hTarget : (p.get a).target with
      | none => exact h
      | some b =>
          dsimp only
          split
          · exact ih (hStep a b h hTarget)
          · exact h

theorem followReferences_keeps
    (fuel : Nat)
    {a : SchemaId}
    (h : P a) :
    P (p.followReferences fuel a) := by
  induction fuel generalizing a with
  | zero => exact h
  | succ fuel ih =>
      unfold followReferences
      cases hTarget : (p.get a).target with
      | none => exact h
      | some b =>
          dsimp only
          split
          · exact ih (follow_keeps hStep _ _ (hStep a b h hTarget))
          · exact h

/- What targets keep, unwrapping keeps. -/
theorem unwrap_keeps
    {a : SchemaId}
    (h : P a) :
    P (p.unwrap a) :=
  followReferences_keeps hStep _ (follow_keeps hStep _ _ h)

omit hStep

/- A slot that is seen is unwrapped within what there was. -/
theorem SeenIn.unwrap_lt
    {q : SchemaPool}
    {a : SchemaId}
    (h : SeenIn a p q) :
    p.unwrap a < p.size :=
  unwrap_keeps (P := fun slot => slot < p.size)
    (fun a b _ hTarget => h.targets a b hTarget) h.slot_lt

/- What it unwraps to has not changed since. -/
theorem SeenIn.get_unwrap
    {q : SchemaPool}
    {a : SchemaId}
    (h : SeenIn a p q) :
    q.get (p.unwrap a) = p.get (p.unwrap a) :=
  h.grows.get_eq h.unwrap_lt

end SchemaPool

end MatchCompiler
