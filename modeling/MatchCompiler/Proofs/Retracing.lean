import MatchCompiler.Proofs.BranchChoices
import MatchCompiler.Proofs.Shown

/-
  This file says when a run can be retraced from the text of
  the tests that it has passed.

  The text of a name that depends on branches tests the
  branches again, with the guards inside in the scope of one
  branch. A part of a run can be retraced if its tests answer
  the same in every scope in which their guards see what they
  use where the run has bound it. Tests, names and parts in
  order are retraced here, from the inside out.

  Key definitions include:
    * `AccessBindings.Recorded`
    * `AccessBindings.Continues`
    * `Plan.Retraced`
    * `Plan.Retraces`

  Key theorems include:
    * `Plan.retraces_guard`
    * `Plan.retraces_all`
-/

------------------------------------------------------------
-- Names Of A Run
------------------------------------------------------------

namespace MatchCompiler

variable {answer : GuardId → ValueBindings → Bool}
variable {root : Value}
variable {clause : AccessBindings}
variable {G : Guard → Prop}
variable {o : LoweringOptions}

namespace AccessBindings

/-
  As long as the choices below `n` are kept, the accesses of
  a part lead where their text leads.
-/
def Settled
    (answer : GuardId → ValueBindings → Bool)
    (root : Value)
    (n : Nat)
    (c : Choices)
    (part : AccessBindings) : Prop :=
  ∀ b ∈ part, ∀ d : Choices, (∀ i < n, d i = c i) →
    b.2.resolve root d = b.2.shown answer root

/- There is a branch for each choice that a part binds. -/
def Chosen
    (c : Choices)
    (part : AccessBindings) : Prop :=
  ∀ b ∈ part, ∀ i cs, b.2 = .choice i cs → ∃ k, c i = some k

/- The branches that are noted are those that the text takes. -/
def Recorded
    (answer : GuardId → ValueBindings → Bool)
    (root : Value)
    (c : Choices)
    (part : AccessBindings) : Prop :=
  ∀ i cs, part.HasChoice i cs → ∀ k, c i = some k →
    ∃ b, Alternative.selected answer root cs = .ok (some b) ∧
      b.branch = k

/-
  What a part binds is bound to the same accesses, or to such
  as depend on the alternations around the part.
-/
def Continues
    (bindings : AccessBindings)
    (around : List Nat)
    (part : AccessBindings) : Prop :=
  ∀ b ∈ part, ∀ a, bindings.lookup b.1 = some a →
    a = b.2 ∨ ∃ i ∈ around, ∃ cs, a = .choice i cs

variable {part : AccessBindings}

theorem Settled.mono
    {n n' : Nat}
    {c c' : Choices}
    (h : Settled answer root n c part)
    (hLe : n ≤ n')
    (hSame : ∀ i < n, c' i = c i) :
    Settled answer root n' c' part := by
  intro b hb d hKept
  refine h b hb d fun i hi => ?_
  rw [hKept i (hi.trans_le hLe), hSame i hi]

/- A part with no branches noted has nothing to compare. -/
theorem recorded_of_unset
    {n m : Nat}
    {c : Choices}
    (hRange : part.ChoicesWithin n m)
    (hUnset : ∀ i, n ≤ i → i < m → c i = none) :
    part.Recorded answer root c := by
  intro i cs hChoice k hk
  rcases hRange i cs hChoice with ⟨hLow, hHigh⟩
  rw [hUnset i hLow hHigh] at hk
  cases hk

/- Bindings that bind each name once continue themselves. -/
theorem continues_self
    (h : part.names.Nodup)
    (around : List Nat) :
    part.Continues around part := by
  intro b hb a hLookup
  cases (lookup_eq_of_mem h hb).symm.trans hLookup
  exact Or.inl rfl

/- Bindings continue what has no name of theirs. -/
theorem continues_of_disjoint
    {bindings : AccessBindings}
    (h : part.names.Disjoint bindings.names)
    (around : List Nat) :
    bindings.Continues around part := by
  intro b hb a hLookup
  have hName : b.1 ∈ part.names := List.mem_map.mpr ⟨b, hb, rfl⟩
  have hBound : b.1 ∈ bindings.names :=
    List.mem_map.mpr ⟨_, mem_of_lookup_eq hLookup, rfl⟩
  exact absurd hBound (h hName)

theorem Continues.subset
    {bindings part' : AccessBindings}
    {around : List Nat}
    (h : bindings.Continues around part)
    (hSub : part' ⊆ part) :
    bindings.Continues around part' :=
  fun b hb => h b (hSub hb)

theorem Continues.append
    {bindings part' : AccessBindings}
    {around : List Nat}
    (h : bindings.Continues around part)
    (h' : bindings.Continues around part') :
    bindings.Continues around (part ++ part') :=
  fun b hb => (List.mem_append.mp hb).elim (h b) (h' b)

/- A larger part of a run has more alternations around. -/
theorem Continues.mono
    {bindings : AccessBindings}
    {around : List Nat}
    (h : bindings.Continues around part)
    (i : Nat) :
    bindings.Continues (i :: around) part := by
  intro b hb a hLookup
  rcases h b hb a hLookup with hEq | ⟨j, hj, hChoice⟩
  · exact Or.inl hEq
  · exact Or.inr ⟨j, List.mem_cons_of_mem i hj, hChoice⟩

end AccessBindings

end MatchCompiler

------------------------------------------------------------
-- Parts Of A Run
------------------------------------------------------------

namespace MatchCompiler

variable {answer : GuardId → ValueBindings → Bool}
variable {root : Value}
variable {clause : AccessBindings}
variable {G : Guard → Prop}
variable {o : LoweringOptions}

namespace Plan

/-
  A run has come to some part: the bindings of the clause
  show what is bound before, and the text leads there too.
-/
structure Reached
    (answer : GuardId → ValueBindings → Bool)
    (root : Value)
    (clause : AccessBindings)
    (Q : Choices → Prop)
    (n : Nat)
    (c : Choices)
    (before : AccessBindings) : Prop where
  here : Q c
  shows : clause.Shows root Q before
  settled : before.Settled answer root n c

/- A run that keeps the choices of others has come on. -/
theorem Reached.move
    {Q : Choices → Prop}
    {n n' m : Nat}
    {c e : Choices}
    {before : AccessBindings}
    (h : Reached answer root clause Q n c before)
    (hLate : Choices.Late m Q)
    (hLow : n ≤ n')
    (hKept : ∀ i, i < n ∨ m ≤ i → e i = c i) :
    Reached answer root clause Q n' e before where
  here := hLate c e (fun i hi => (hKept i (.inr hi)).symm) h.here
  shows := h.shows
  settled := h.settled.mono hLow fun i hi => hKept i (.inl hi)

/-
  The tests of a part that a run with a pure host has passed
  from `c` to `d` can be retraced in any scope that continues
  what the run has bound: `places` are those of the guards
  that are asked, and `ends` says how the part ends under
  some answers.
-/
structure Retraced
    (answer : GuardId → ValueBindings → Bool)
    (root : Value)
    (G : Guard → Prop)
    (before part : AccessBindings)
    (places : List Nat → List (GuardId × List Nat))
    (ends : GuardAnswers → Prop)
    (n m : Nat)
    (c d : Choices)
    (b : Bool) : Prop where
  kept : ∀ i, i < n ∨ m ≤ i → d i = c i
  again :
    ∀ (bindings : AccessBindings) (around : List Nat),
      bindings.names.Nodup →
      bindings.Continues around before →
      bindings.Continues around part →
      (∀ place ∈ places around, bindings.Sees G place) →
      ends (.fixed answer (Access.shownScope answer root bindings))
  recorded : part.Recorded answer root d
  settled : b = true → part.Settled answer root m d
  chosen : b = true → part.Chosen d

namespace Retraced

variable {before part part' : AccessBindings}
variable {places places' : List Nat → List (GuardId × List Nat)}
variable {ends ends' : GuardAnswers → Prop}
variable {n n' m : Nat}
variable {c d e : Choices}
variable {b : Bool}

/- A part of no choices that has not moved. -/
theorem still
    (hNone : ∀ i cs, ¬ part.HasChoice i cs)
    (hAgain :
      ∀ bindings : AccessBindings, ∀ around,
        bindings.names.Nodup →
        bindings.Continues around before →
        bindings.Continues around part →
        (∀ place ∈ places around, bindings.Sees G place) →
        ends (.fixed answer (Access.shownScope answer root bindings)))
    (hSettled : b = true → part.Settled answer root m c) :
    Retraced answer root G before part places ends n m c c b where
  kept := fun _ _ => rfl
  again := hAgain
  recorded := fun i cs hChoice => absurd hChoice (hNone i cs)
  settled := hSettled
  chosen := fun _ b hb i cs hEq => by
    rcases b with ⟨x, a⟩
    cases hEq
    exact absurd (.here hb) (hNone i cs)

/- Another description of the same tests. -/
theorem congr
    (h : Retraced answer root G before part places ends n m c d b)
    (hPlaces : ∀ around, places' around = places around)
    (hEnds : ∀ can, ends can → ends' can) :
    Retraced answer root G before part places' ends' n m c d b where
  kept := h.kept
  again := by
    intro bindings around hNodup hBefore hPart hSees
    rw [hPlaces] at hSees
    exact hEnds _ (h.again bindings around hNodup hBefore hPart hSees)
  recorded := h.recorded
  settled := h.settled
  chosen := h.chosen

/- After a part that has held comes another one. -/
theorem andThen
    (hHead : Retraced answer root G before part places ends n n' c e true)
    (hRest :
      Retraced answer root G (part ++ before) part' places' ends' n' m
        e d b)
    (hLow : n ≤ n')
    (hHigh : n' ≤ m)
    (hOwn : part.ChoicesWithin n n') :
    Retraced answer root G before (part ++ part')
      (fun around => places around ++ places' around)
      (fun can => ends can ∧ ends' can) n m c d b where
  kept := by
    intro i hi
    rw [hRest.kept i (hi.imp_left (·.trans_le hLow)),
      hHead.kept i (hi.imp_right hHigh.trans)]
  again := by
    intro bindings around hNodup hBefore hBoth hPlaces
    rcases List.forall_mem_append.mp hPlaces with ⟨hHere, hThere⟩
    have hPart := hBoth.subset (List.subset_append_left part part')
    have hPart' := hBoth.subset (List.subset_append_right part part')
    exact ⟨hHead.again bindings around hNodup hBefore hPart hHere,
      hRest.again bindings around hNodup (hPart.append hBefore) hPart'
        hThere⟩
  recorded := by
    intro i cs hChoice k hk
    rcases AccessBindings.hasChoice_append hChoice with hIn | hIn
    · rw [hRest.kept i (.inl (hOwn i cs hIn).2)] at hk
      exact hHead.recorded i cs hIn k hk
    · exact hRest.recorded i cs hIn k hk
  settled := by
    intro hb x hx
    rcases List.mem_append.mp hx with hx | hx
    · exact (hHead.settled rfl).mono hHigh
        (fun i hi => hRest.kept i (.inl hi)) x hx
    · exact hRest.settled hb x hx
  chosen := by
    rintro hb ⟨x, a⟩ hx i cs rfl
    rcases List.mem_append.mp hx with hx | hx
    · rw [hRest.kept i (.inl (hOwn i cs (.here hx)).2)]
      exact hHead.chosen rfl _ hx i cs rfl
    · exact hRest.chosen hb _ hx i cs rfl

/- After a part that has failed comes no other one. -/
theorem stop
    (hHead : Retraced answer root G before part places ends n n' c d false)
    (hLow : n ≤ n')
    (hHigh : n' ≤ m)
    (hOther : part'.ChoicesWithin n' m)
    (hUnset : ∀ i, n ≤ i → i < m → c i = none) :
    Retraced answer root G before (part ++ part')
      (fun around => places around ++ places' around)
      ends n m c d false where
  kept := fun i hi => hHead.kept i (hi.imp_right hHigh.trans)
  again := by
    intro bindings around hNodup hBefore hBoth hPlaces
    exact hHead.again bindings around hNodup hBefore
      (hBoth.subset (List.subset_append_left part part'))
      (List.forall_mem_append.mp hPlaces).1
  recorded := by
    intro i cs hChoice k hk
    rcases AccessBindings.hasChoice_append hChoice with hIn | hIn
    · exact hHead.recorded i cs hIn k hk
    · refine AccessBindings.recorded_of_unset hOther
        (fun i hi hi' => ?_) i cs hIn k hk
      rw [hHead.kept i (.inr hi)]
      exact hUnset i (hLow.trans hi) hi'
  settled := nofun
  chosen := nofun

end Retraced

/- The simplified test of a plan can be retraced. -/
abbrev RetracedPart
    (answer : GuardId → ValueBindings → Bool)
    (root : Value)
    (clause : AccessBindings)
    (G : Guard → Prop)
    (o : LoweringOptions)
    (before : AccessBindings)
    (p : Plan)
    (n : Nat)
    (c d : Choices)
    (b : Bool) : Prop :=
  Retraced answer root G before (p.lower o n).1.bindings
    ((p.lower o n).1.test.simplify o).guardPlaces
    (fun can =>
      ((p.lower o n).1.test.simplify o).CanEnd can root clause c
        (.ok b) d)
    n (p.lower o n).2 c d b

/-
  Every answer of the simplified test of a plan, if a run
  comes to it with no branches noted inside and the guards in
  its alternations see what they use, can be retraced.
-/
def Retraces
    (answer : GuardId → ValueBindings → Bool)
    (root : Value)
    (clause : AccessBindings)
    (G : Guard → Prop)
    (o : LoweringOptions)
    (p : Plan) : Prop :=
  ∀ ⦃n : Nat⦄ ⦃Q : Choices → Prop⦄ ⦃c d : Choices⦄ ⦃b : Bool⦄
    ⦃before : AccessBindings⦄,
    Choices.Late (p.lower o n).2 Q →
    Reached answer root clause Q n c before →
    (∀ i, n ≤ i → i < (p.lower o n).2 → c i = none) →
    clause.Shows root Q (p.lower o n).1.bindings →
    p.Scoped G before.names →
    before.names.Disjoint p.names →
    p.names.Nodup →
    (p.lower o n).1.bindings.GuardsSeen G →
    ((p.lower o n).1.test.simplify o).CanEnd (.ofFunction answer) root
      clause c (.ok b) d →
    RetracedPart answer root clause G o before p n c d b

end Plan

end MatchCompiler

------------------------------------------------------------
-- Parts In Order
------------------------------------------------------------

namespace MatchCompiler

variable {answer : GuardId → ValueBindings → Bool}
variable {root : Value}
variable {clause : AccessBindings}
variable {G : Guard → Prop}
variable {o : LoweringOptions}

namespace Plan

/- A leaf that reads paths only answers the same again. -/
theorem retraces_leaf
    {t : Test}
    (hLeaf : t.IsLeaf) :
    Retraces answer root clause G o (.test t) := by
  have hForm : t.simplify o = t := by
    cases t <;> first | exact hLeaf.elim | rfl
  intro n Q c d b before hLate hReached hUnset hShows hScoped hApart
    hNodup hSeen hEnd
  unfold RetracedPart
  simp only [lower, Lowered.ofTest, hForm] at hEnd ⊢
  rw [Test.canEnd_leaf hLeaf] at hEnd
  rcases hEnd with ⟨rfl, hRead⟩
  exact {
    kept := fun _ _ => rfl
    again := fun _ _ _ _ _ _ =>
      (Test.canEnd_leaf hLeaf _ _ _).mpr ⟨rfl, hRead⟩
    recorded := by
      intro i cs hChoice
      rcases hChoice.exists_mem with ⟨e, he, -⟩
      cases he
    settled := fun _ => List.forall_mem_nil _
    chosen := fun _ => List.forall_mem_nil _ }

/-
  A guard that sees what it uses gets the values that it got
  in the run, and so the same answer.
-/
theorem retraces_guard
    (hClause : clause.names.Nodup)
    (hUses :
      ∀ g, G g → ∀ bs bs' : ValueBindings,
        (∀ x ∈ g.uses, bs.lookup x = bs'.lookup x) →
        answer g.id bs = answer g.id bs')
    (id : GuardId) :
    Retraces answer root clause G o (.test (.guard id)) := by
  rintro n Q c d b before hLate hReached hUnset hShows
    ⟨g, hG, rfl, hBound⟩ hApart hNodup hSeen hEnd
  rcases hEnd with ⟨rfl, b', hAnswer, hEq⟩
  cases hEq
  refine {
    kept := fun _ _ => rfl
    again := ?_
    recorded := ?_
    settled := fun _ => nofun
    chosen := fun _ => nofun }
  · intro bindings around hNodup' hBefore _ hPlaces
    refine ⟨rfl, b, ?_, rfl⟩
    have hSame :
        ∀ x ∈ g.uses,
          (clause.readable root d).lookup x =
            (Access.shownScope answer root bindings).lookup x := by
      intro x hx
      rcases List.mem_map.mp (hBound hx) with ⟨⟨y, a⟩, hMem, rfl⟩
      rcases hReached.shows _ hMem with ⟨a', hFound, hAlike⟩
      rcases hPlaces _ (List.mem_singleton_self _) g hG rfl _ hx with
        ⟨e, hLookup, hNot⟩
      -- The scope has the access that was bound on the way.
      have hOwn : e = a := by
        rcases hBefore _ hMem e hLookup with hEq | ⟨i, hi, cs, hEq⟩
        · exact hEq
        · exact absurd hEq (hNot i hi cs)
      rw [hOwn] at hLookup
      rw [AccessBindings.shownScope_eq,
        AccessBindings.lookup_readBy hNodup' hLookup,
        ← hReached.settled _ hMem d fun _ _ => rfl,
        ← hAlike d hReached.here]
      exact AccessBindings.lookup_readBy hClause hFound
    exact hAnswer.trans (hUses g hG _ _ hSame)
  · intro i cs hChoice
    rcases hChoice.exists_mem with ⟨e, he, -⟩
    cases he

/- A name that is bound to a path has what the path leads to. -/
theorem retraces_bind
    (x : String)
    {a : Access}
    (ha : a.Plain)
    (hShown : a.IsShown answer root)
    {p : Plan}
    (h : Retraces answer root clause G o p) :
    Retraces answer root clause G o (.bind x a p) := by
  intro n Q c d b before hLate hReached hUnset hShows hScoped hApart
    hNodup hSeen hEnd
  have hSub := List.subset_cons_self (x, a) (p.lower o n).1.bindings
  rcases List.disjoint_cons_right.mp hApart with ⟨-, hApart'⟩
  have hInner := h hLate hReached hUnset (hShows.subset hSub) hScoped
    hApart' (List.nodup_cons.mp hNodup).2 (hSeen.subset hSub) hEnd
  exact {
    kept := hInner.kept
    again := fun bindings around hNodup' hBefore hPart =>
      hInner.again bindings around hNodup' hBefore (hPart.subset hSub)
    recorded := fun i cs hChoice =>
      hInner.recorded i cs (hChoice.of_cons ha.isPath)
    settled := fun hb => List.forall_mem_cons.mpr
      ⟨fun e _ => hShown e, hInner.settled hb⟩
    chosen := fun hb => List.forall_mem_cons.mpr
      ⟨fun i cs hEq => absurd hEq (ha.isPath i cs),
        hInner.chosen hb⟩ }

/-
  Parts in order are retraced one after the other: the names
  of a part that has held are bound before the next one.
-/
theorem retraced_inTurn
    {ps : List Plan}
    (hUniform : ∀ p ∈ ps, p.Uniform)
    (h : ∀ p ∈ ps, Retraces answer root clause G o p)
    {n : Nat}
    {Q : Choices → Prop}
    {c d : Choices}
    {b : Bool}
    {before : AccessBindings}
    (hLate : Choices.Late (lowerAll o ps n).2 Q)
    (hReached : Reached answer root clause Q n c before)
    (hUnset : ∀ i, n ≤ i → i < (lowerAll o ps n).2 → c i = none)
    (hShows :
      clause.Shows root Q
        ((lowerAll o ps n).1.flatMap Lowered.bindings))
    (hScoped : ScopedInTurn G ps before.names)
    (hApart : before.names.Disjoint (namesOfAll ps))
    (hNodup : (namesOfAll ps).Nodup)
    (hSeen :
      AccessBindings.GuardsSeen G
        ((lowerAll o ps n).1.flatMap Lowered.bindings))
    (hEnd :
      Test.CanEndWhile (.ofFunction answer) root clause true
        (Test.simplifyAll o ((lowerAll o ps n).1.map Lowered.test))
        c (.ok b) d) :
    Retraced answer root G before
      ((lowerAll o ps n).1.flatMap Lowered.bindings)
      (Test.guardPlacesOfAll
        (Test.simplifyAll o ((lowerAll o ps n).1.map Lowered.test)))
      (fun can =>
        Test.CanEndWhile can root clause true
          (Test.simplifyAll o ((lowerAll o ps n).1.map Lowered.test))
          c (.ok b) d)
      n (lowerAll o ps n).2 c d b := by
  induction ps generalizing n c before with
  | nil =>
      rcases hEnd with ⟨rfl, hEq⟩
      exact .still AccessBindings.not_hasChoice_nil
        (fun _ _ _ _ _ _ => ⟨rfl, hEq⟩) fun _ => nofun
  | cons p ps ih =>
      rcases List.forall_mem_cons.mp hUniform with ⟨hHead, hTail⟩
      rcases List.forall_mem_cons.mp h with ⟨hp, hps⟩
      rcases hScoped with ⟨hScope, hScopes⟩
      rcases List.nodup_append'.mp hNodup with
        ⟨hOwn, hOthers, hDistinct⟩
      rcases List.disjoint_append_right.mp hApart with
        ⟨hApartOwn, hApartOthers⟩
      have hLow := (hHead.tidy o n).le
      have hHigh := le_lowerAll o hTail (p.lower o n).2
      have hHere := List.subset_append_left (p.lower o n).1.bindings
        ((lowerAll o ps (p.lower o n).2).1.flatMap Lowered.bindings)
      have hThere := List.subset_append_right (p.lower o n).1.bindings
        ((lowerAll o ps (p.lower o n).2).1.flatMap Lowered.bindings)
      have hFirst {b e} :=
        @hp n Q c e b before (hLate.mono hHigh) hReached
          (fun i hi hi' => hUnset i hi (hi'.trans_le hHigh))
          (hShows.subset hHere) hScope hApartOwn hOwn
          (hSeen.subset hHere)
      rcases hEnd with ⟨e, hHead', hRest⟩ | ⟨hNe, hHead'⟩
      · have hPart := hFirst hHead'
        -- What the part binds is bound before the others.
        have hNames :
            AccessBindings.names
                ((p.lower o n).1.bindings ++ before) =
              p.names ++ before.names := by
          rw [← lower_names o p n]
          exact List.map_append
        have hMoved := hReached.move (hLate.mono hHigh) hLow hPart.kept
        have hReached' :
            Reached answer root clause Q (p.lower o n).2 e
              ((p.lower o n).1.bindings ++ before) := {
          here := hMoved.here
          shows := fun x hx => (List.mem_append.mp hx).elim
            (hShows.subset hHere x) (hReached.shows x)
          settled := fun x hx => (List.mem_append.mp hx).elim
            (hPart.settled rfl x) (hMoved.settled x) }
        have hUnset' :
            ∀ i, (p.lower o n).2 ≤ i →
              i < (lowerAll o ps (p.lower o n).2).2 → e i = none := by
          intro i hi hi'
          rw [hPart.kept i (.inr hi)]
          exact hUnset i (hLow.trans hi) hi'
        have hScopes' :
            ScopedInTurn G ps
              (AccessBindings.names
                ((p.lower o n).1.bindings ++ before)) := by
          rw [hNames]
          exact scopedInTurn_mono hScopes fun x hx =>
            List.perm_append_comm.subset hx
        have hApart' :
            (AccessBindings.names
              ((p.lower o n).1.bindings ++ before)).Disjoint
              (namesOfAll ps) := by
          rw [hNames]
          exact List.disjoint_append_left.mpr
            ⟨hDistinct, hApartOthers⟩
        have hBoth := hPart.andThen
          (ih hTail hps hLate hReached' hUnset' (hShows.subset hThere)
            hScopes' hApart' hOthers (hSeen.subset hThere) hRest)
          hLow hHigh (hHead.choicesWithin o n)
        exact hBoth.congr (fun _ => rfl) fun _ hEnds =>
          Or.inl ⟨e, hEnds⟩
      · have hb : b = false := by
          cases b with
          | true => exact absurd rfl hNe
          | false => rfl
        subst hb
        have hOther := (Uniform.all hTail).choicesWithin o
          (p.lower o n).2
        exact ((hFirst hHead').stop hLow hHigh hOther hUnset).congr
          (fun _ => rfl) fun _ hEnds => Or.inr ⟨nofun, hEnds⟩

/- A conjunction is retraced by its tests, or never holds. -/
theorem retraces_all
    {ps : List Plan}
    (hUniform : ∀ p ∈ ps, p.Uniform)
    (h : ∀ p ∈ ps, Retraces answer root clause G o p) :
    Retraces answer root clause G o (.all ps) := by
  intro n Q c d b before hLate hReached hUnset hShows hScoped hApart
    hNodup hSeen hEnd
  have hTest :
      ((Plan.all ps).lower o n).1.test.simplify o =
        Test.conjunction
          (Test.simplifyAll o ((lowerAll o ps n).1.map Lowered.test)) :=
    rfl
  unfold RetracedPart
  rw [hTest] at hEnd ⊢
  cases hForm :
      Test.conjuncts
        (Test.simplifyAll o ((lowerAll o ps n).1.map Lowered.test)) with
  | some us =>
      rw [Test.canEnd_conjunction hForm] at hEnd
      have hParts := retraced_inTurn hUniform h hLate hReached hUnset
        hShows hScoped hApart hNodup hSeen hEnd
      exact hParts.congr
        (fun around => Test.guardPlaces_conjunction around hForm)
        (fun can => (Test.canEnd_conjunction hForm).mpr)
  | none =>
      rw [Test.conjunction_of_none hForm] at hEnd ⊢
      rcases hEnd with ⟨rfl, hEq⟩
      cases hEq
      have hRange := (Uniform.all hUniform).choicesWithin o n
      exact {
        kept := fun _ _ => rfl
        again := fun _ _ _ _ _ _ => ⟨rfl, rfl⟩
        recorded := AccessBindings.recorded_of_unset hRange hUnset
        settled := nofun
        chosen := nofun }

end Plan

end MatchCompiler
