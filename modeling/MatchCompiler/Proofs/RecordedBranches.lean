import MatchCompiler.Proofs.DirectMatch
import MatchCompiler.Proofs.Preservation
import MatchCompiler.Proofs.Retracing

/-
  This file compares the branches that a run notes with those
  that the text of a procedure takes.

  Branches that agree on their accesses need no choice. Those
  of a numbered alternation are tried while they are noted;
  the text takes the one that has held, since it tests in the
  scopes of the branches what the run has tested. In a clause
  of an accepted arm the two agree if the guards of branches
  see what they use in the bindings of their branch. Where
  the scope leads through an alternation around the guard,
  they can differ.

  Key definitions include:
    * `Plan.RetracedFirst`
    * `Lowered.Taken`

  Key theorems include:
    * `Plan.retraced_branches`
    * `Plan.Uniform.retraces`
    * `CheckedArm.AcceptedFrom.recorded_eq_selected`
-/

------------------------------------------------------------
-- Branches That Agree
------------------------------------------------------------

namespace MatchCompiler

variable {answer : GuardId → ValueBindings → Bool}
variable {root : Value}
variable {clause : AccessBindings}
variable {G : Guard → Prop}
variable {o : LoweringOptions}

namespace Plan

/-
  The branches of an alternation are retraced: those that
  have failed, and the one that has held, which is `found`.
-/
structure RetracedFirst
    (answer : GuardId → ValueBindings → Bool)
    (root : Value)
    (G : Guard → Prop)
    (before : AccessBindings)
    (branches : List Lowered)
    (places : List Nat → List (GuardId × List Nat))
    (ends : GuardAnswers → Prop)
    (n m : Nat)
    (c d : Choices)
    (b : Bool)
    (found : Nat → Lowered → Prop) : Prop where
  kept : ∀ i, i < n ∨ m ≤ i → d i = c i
  again :
    ∀ (bindings : AccessBindings) (around : List Nat),
      bindings.names.Nodup →
      bindings.Continues around before →
      (∀ l ∈ branches, bindings.Continues around l.bindings) →
      (∀ place ∈ places around, bindings.Sees G place) →
      ends (.fixed answer (Access.shownScope answer root bindings))
  recorded : ∀ l ∈ branches, l.bindings.Recorded answer root d
  found :
    b = true →
      ∃ (j : Nat) (l : Lowered), branches[j]? = some l ∧
        l.bindings.Settled answer root m d ∧
        l.bindings.Chosen d ∧ found j l

namespace RetracedFirst

variable {before : AccessBindings}
variable {l : Lowered}
variable {ls : List Lowered}
variable {places places' : List Nat → List (GuardId × List Nat)}
variable {ends ends' : GuardAnswers → Prop}
variable {n n' m m' : Nat}
variable {c c' d e : Choices}
variable {b : Bool}
variable {found found' : Nat → Lowered → Prop}

/- Another description of the same branches. -/
theorem congr
    (h :
      RetracedFirst answer root G before ls places ends n m c d b
        found)
    (hPlaces : ∀ around, places' around = places around)
    (hEnds : ∀ can, ends can → ends' can) :
    RetracedFirst answer root G before ls places' ends' n m c d b
      found where
  kept := h.kept
  again := by
    intro bindings around hNodup hBefore hBranches hSees
    rw [hPlaces] at hSees
    exact hEnds _
      (h.again bindings around hNodup hBefore hBranches hSees)
  recorded := h.recorded
  found := h.found

/- After a branch that has failed come the others. -/
theorem next
    (hHead :
      Retraced answer root G before l.bindings places ends n n' c' e
        false)
    (hRest :
      RetracedFirst answer root G before ls places' ends' n' m e d b
        found')
    (hMoved : ∀ i, i < n ∨ m ≤ i → c' i = c i)
    (hLow : n ≤ n')
    (hHigh : n' ≤ m)
    (hOwn : l.bindings.ChoicesWithin n n')
    (hFound :
      ∀ j l', ls[j]? = some l' → found' j l' → found (j + 1) l') :
    RetracedFirst answer root G before (l :: ls)
      (fun around => places around ++ places' around)
      (fun can => ends can ∧ ends' can) n m c d b found where
  kept := by
    intro i hi
    rw [hRest.kept i (hi.imp_left (·.trans_le hLow)),
      hHead.kept i (hi.imp_right hHigh.trans), hMoved i hi]
  again := by
    intro bindings around hNodup hBefore hBranches hPlaces
    rcases List.forall_mem_append.mp hPlaces with ⟨hHere, hThere⟩
    rcases List.forall_mem_cons.mp hBranches with ⟨hPart, hParts⟩
    exact ⟨hHead.again bindings around hNodup hBefore hPart hHere,
      hRest.again bindings around hNodup hBefore hParts hThere⟩
  recorded := by
    refine List.forall_mem_cons.mpr ⟨?_, hRest.recorded⟩
    intro i cs hChoice k hk
    rw [hRest.kept i (.inl (hOwn i cs hChoice).2)] at hk
    exact hHead.recorded i cs hChoice k hk
  found := by
    intro hb
    rcases hRest.found hb with ⟨j, l', hl', hSettled, hChosen, hNext⟩
    exact ⟨j + 1, l', hl', hSettled, hChosen, hFound j l' hl' hNext⟩

/- After a branch that has held comes no other one. -/
theorem here
    (hHead :
      Retraced answer root G before l.bindings places ends n n' c' d
        true)
    (hMoved : ∀ i, i < n ∨ m ≤ i → c' i = c i)
    (hHigh : n' ≤ m)
    (hOther : ∀ l' ∈ ls, l'.bindings.ChoicesWithin n' m')
    (hUnset : ∀ i, n' ≤ i → i < m' → c' i = none)
    (hFound : found 0 l) :
    RetracedFirst answer root G before (l :: ls)
      (fun around => places around ++ places' around)
      ends n m c d true found where
  kept := by
    intro i hi
    rw [hHead.kept i (hi.imp_right hHigh.trans), hMoved i hi]
  again := by
    intro bindings around hNodup hBefore hBranches hPlaces
    exact hHead.again bindings around hNodup hBefore
      (List.forall_mem_cons.mp hBranches).1
      (List.forall_mem_append.mp hPlaces).1
  recorded := by
    refine List.forall_mem_cons.mpr ⟨hHead.recorded, ?_⟩
    intro l' hl'
    refine AccessBindings.recorded_of_unset (hOther l' hl')
      fun i hi hi' => ?_
    rw [hHead.kept i (.inr hi)]
    exact hUnset i hi hi'
  found := fun _ =>
    ⟨0, l, rfl,
      (hHead.settled rfl).mono hHigh fun _ _ => rfl,
      hHead.chosen rfl, hFound⟩

variable {l₀ : Lowered}

/- Branches that agree are retraced as the first one. -/
theorem agreed
    (h :
      RetracedFirst answer root G before ls places ends n m c d b found)
    (h₀ : l₀ ∈ ls)
    (hSame :
      ∀ l ∈ ls, l₀.bindings ⊆ l.bindings ∧ l.bindings ⊆ l₀.bindings) :
    Retraced answer root G before l₀.bindings places ends n m c d b where
  kept := h.kept
  again := fun bindings around hNodup hBefore hPart =>
    h.again bindings around hNodup hBefore fun l hl =>
      hPart.subset (hSame l hl).2
  recorded := h.recorded l₀ h₀
  settled := by
    intro hb e he
    rcases h.found hb with ⟨j, l, hl, hSettled, -, -⟩
    exact hSettled e ((hSame l (List.mem_of_getElem? hl)).1 he)
  chosen := by
    intro hb e he
    rcases h.found hb with ⟨j, l, hl, -, hChosen, -⟩
    exact hChosen e ((hSame l (List.mem_of_getElem? hl)).1 he)

end RetracedFirst

/- A lowered plan of several has its numbers among theirs. -/
theorem exists_of_mem_lowerAll
    {ps : List Plan}
    (hUniform : ∀ p ∈ ps, p.Uniform)
    {n : Nat}
    {l : Lowered}
    (hl : l ∈ (lowerAll o ps n).1) :
    ∃ p ∈ ps, ∃ m, n ≤ m ∧ l = (p.lower o m).1 ∧
      (p.lower o m).2 ≤ (lowerAll o ps n).2 := by
  induction ps generalizing n with
  | nil => cases hl
  | cons p ps ih =>
      rcases List.forall_mem_cons.mp hUniform with ⟨hHead, hTail⟩
      rcases List.mem_cons.mp hl with rfl | hl
      · exact ⟨p, List.mem_cons_self, n, Nat.le_refl n, rfl,
          le_lowerAll o hTail _⟩
      · rcases ih hTail hl with ⟨q, hq, m, hLow, rfl, hHigh⟩
        exact ⟨q, List.mem_cons_of_mem p hq, m,
          (hHead.tidy o n).le.trans hLow, rfl, hHigh⟩

section

variable {ps : List Plan}
variable (hUniform : ∀ p ∈ ps, p.Uniform)
variable (h : ∀ p ∈ ps, Retraces answer root clause G o p)
variable {n : Nat}
variable {Q : Choices → Prop}
variable {c d : Choices}
variable {b : Bool}
variable {before : AccessBindings}
variable (hLate : Choices.Late (lowerAll o ps n).2 Q)
variable (hReached : Reached answer root clause Q n c before)
variable (hUnset : ∀ i, n ≤ i → i < (lowerAll o ps n).2 → c i = none)
variable (hShows :
  ∀ l ∈ (lowerAll o ps n).1, clause.Shows root Q l.bindings)
variable (hScoped : ScopedEach G ps before.names)
variable (hApart : ∀ p ∈ ps, before.names.Disjoint p.names)
variable (hNodup : ∀ p ∈ ps, p.names.Nodup)
variable (hSeen : ∀ l ∈ (lowerAll o ps n).1, l.bindings.GuardsSeen G)

include hUniform h hLate hReached hUnset hShows hScoped hApart hNodup
include hSeen

/- Branches that agree on their accesses are retraced. -/
theorem retraced_first
    (hEnd :
      Test.CanEndWhile (.ofFunction answer) root clause false
        (Test.simplifyAll o ((lowerAll o ps n).1.map Lowered.test))
        c (.ok b) d) :
    RetracedFirst answer root G before (lowerAll o ps n).1
      (Test.guardPlacesOfAll
        (Test.simplifyAll o ((lowerAll o ps n).1.map Lowered.test)))
      (fun can =>
        Test.CanEndWhile can root clause false
          (Test.simplifyAll o ((lowerAll o ps n).1.map Lowered.test))
          c (.ok b) d)
      n (lowerAll o ps n).2 c d b (fun _ _ => True) := by
  induction ps generalizing n c with
  | nil =>
      rcases hEnd with ⟨rfl, hEq⟩
      cases hEq
      exact {
        kept := fun _ _ => rfl
        again := fun _ _ _ _ _ _ => ⟨rfl, rfl⟩
        recorded := nofun
        found := nofun }
  | cons p ps ih =>
      rcases List.forall_mem_cons.mp hUniform with ⟨hHead, hTail⟩
      rcases List.forall_mem_cons.mp h with ⟨hp, hps⟩
      rcases List.forall_mem_cons.mp hShows with ⟨hShow, hShows'⟩
      rcases List.forall_mem_cons.mp hApart with ⟨hDisjoint, hApart'⟩
      rcases List.forall_mem_cons.mp hNodup with ⟨hOwn, hNodup'⟩
      rcases List.forall_mem_cons.mp hSeen with ⟨hSee, hSeen'⟩
      rcases hScoped with ⟨hScope, hScopes⟩
      have hLow := (hHead.tidy o n).le
      have hHigh := le_lowerAll o hTail (p.lower o n).2
      have hFirst {b e} :=
        @hp n Q c e b before (hLate.mono hHigh) hReached
          (fun i hi hi' => hUnset i hi (hi'.trans_le hHigh))
          hShow hScope hDisjoint hOwn hSee
      rcases hEnd with ⟨e, hHead', hRest⟩ | ⟨hNe, hHead'⟩
      · have hPart := hFirst hHead'
        have hReached' :=
          hReached.move (hLate.mono hHigh) hLow hPart.kept
        have hUnset' :
            ∀ i, (p.lower o n).2 ≤ i →
              i < (lowerAll o ps (p.lower o n).2).2 → e i = none := by
          intro i hi hi'
          rw [hPart.kept i (.inr hi)]
          exact hUnset i (hLow.trans hi) hi'
        refine RetracedFirst.congr
          (.next hPart
            (ih hTail hps hLate hReached' hUnset' hShows' hScopes
              hApart' hNodup' hSeen' hRest)
            (fun _ _ => rfl) hLow hHigh (hHead.choicesWithin o n)
            fun _ _ _ _ => trivial)
          (fun _ => rfl) fun _ hEnds => Or.inl ⟨e, hEnds⟩
      · have hb : b = true := by
          cases b with
          | true => rfl
          | false => exact absurd rfl hNe
        subst hb
        have hRange := choicesWithin_lowerAll hTail
          (fun q hq => (hTail q hq).choicesWithin o) (p.lower o n).2
        refine RetracedFirst.congr
          (.here (hFirst hHead') (fun _ _ => rfl) hHigh hRange
            (fun i hi hi' => hUnset i (hLow.trans hi) hi') trivial)
          (fun _ => rfl) fun _ hEnds => Or.inr ⟨nofun, hEnds⟩

/-
  A branch that always holds is there if a disjunction does,
  and so its accesses lead where their text leads.
-/
theorem exists_always
    (hForm :
      Test.disjuncts
        (Test.simplifyAll o ((lowerAll o ps n).1.map Lowered.test)) =
        none) :
    ∃ l ∈ (lowerAll o ps n).1,
      l.bindings.Settled answer root (lowerAll o ps n).2 c ∧
        l.bindings.Chosen c := by
  rcases Test.exists_of_mem_simplifyAll
    (Test.always_mem_of_disjuncts hForm) with ⟨t, ht, hAlways⟩
  rcases List.mem_map.mp ht with ⟨l, hl, rfl⟩
  rcases exists_of_mem_lowerAll hUniform hl with
    ⟨p, hp, m, hLow, rfl, hHigh⟩
  have hMoved :=
    hReached.move hLate hLow (e := c) fun _ _ => rfl
  have hEnd :
      ((p.lower o m).1.test.simplify o).CanEnd (.ofFunction answer) root
        clause c (.ok true) c := by
    rw [hAlways]
    exact ⟨rfl, rfl⟩
  have hPart := h p hp (hLate.mono hHigh) hMoved
    (fun i hi hi' => hUnset i (hLow.trans hi) (hi'.trans_le hHigh))
    (hShows _ hl) (scopedEach_iff.mp hScoped p hp) (hApart p hp)
    (hNodup p hp) (hSeen _ hl) hEnd
  exact ⟨_, hl, (hPart.settled rfl).mono hHigh fun _ _ => rfl,
    hPart.chosen rfl⟩

/-
  A disjunction of branches that agree is retraced by these,
  or always holds.
-/
theorem retraced_disjunction
    {l₀ : Lowered}
    (h₀ : l₀ ∈ (lowerAll o ps n).1)
    (hAgree :
      ∀ l ∈ (lowerAll o ps n).1,
        l₀.bindings ⊆ l.bindings ∧ l.bindings ⊆ l₀.bindings)
    (hEnd :
      (Test.disjunction o
        (Test.simplifyAll o
          ((lowerAll o ps n).1.map Lowered.test))).CanEnd
        (.ofFunction answer) root clause c (.ok b) d) :
    Retraced answer root G before l₀.bindings
      (Test.disjunction o
        (Test.simplifyAll o
          ((lowerAll o ps n).1.map Lowered.test))).guardPlaces
      (fun can =>
        (Test.disjunction o
          (Test.simplifyAll o
            ((lowerAll o ps n).1.map Lowered.test))).CanEnd can root
          clause c (.ok b) d)
      n (lowerAll o ps n).2 c d b := by
  cases hForm :
      Test.disjuncts
        (Test.simplifyAll o ((lowerAll o ps n).1.map Lowered.test)) with
  | some us =>
      have hParts := retraced_first hUniform h hLate hReached hUnset
        hShows hScoped hApart hNodup hSeen
        ((Test.canEnd_disjunction o hForm).mp hEnd)
      exact (hParts.agreed h₀ hAgree).congr
        (fun around => Test.guardPlaces_disjunction around o hForm)
        fun can => (Test.canEnd_disjunction o hForm).mpr
  | none =>
      rw [Test.disjunction_of_none o hForm] at hEnd ⊢
      rcases hEnd with ⟨rfl, hEq⟩
      cases hEq
      rcases exists_always hUniform h hLate hReached hUnset hShows
        hScoped hApart hNodup hSeen hForm with
        ⟨l, hl, hSettled, hChosen⟩
      have hRange := choicesWithin_lowerAll hUniform
        (fun p hp => (hUniform p hp).choicesWithin o) n l₀ h₀
      exact {
        kept := fun _ _ => rfl
        again := fun _ _ _ _ _ _ => ⟨rfl, rfl⟩
        recorded := AccessBindings.recorded_of_unset hRange hUnset
        settled := fun _ e he => hSettled e ((hAgree l hl).1 he)
        chosen := fun _ e he => hChosen e ((hAgree l hl).1 he) }

end

end Plan

end MatchCompiler

------------------------------------------------------------
-- Numbered Branches
------------------------------------------------------------

namespace MatchCompiler

variable {answer : GuardId → ValueBindings → Bool}
variable {root : Value}
variable {clause : AccessBindings}
variable {G : Guard → Prop}
variable {o : LoweringOptions}

/-
  For each name that all of some branches bind, the text of
  its choice takes the branch at a place.
-/
def Lowered.Taken
    (answer : GuardId → ValueBindings → Bool)
    (root : Value)
    (o : LoweringOptions)
    (start : Nat)
    (ls : List Lowered)
    (j : Nat)
    (l : Lowered) : Prop :=
  ∀ x, (∀ l' ∈ ls, ∃ a, l'.bindings.lookup x = some a) →
    ∀ a, l.bindings.lookup x = some a →
      Alternative.selected answer root
          (Lowered.choicesFrom o x start ls) =
        .ok (some (.mk (start + j) (l.test.simplify o) l.bindings a))

/- What the text of the test of a branch answers for a choice. -/
def Lowered.answersFor
    (answer : GuardId → ValueBindings → Bool)
    (root : Value)
    (o : LoweringOptions)
    (l : Lowered) : Except ShapeMismatch Bool :=
  (l.test.simplify o).shown answer root
    (Access.shownScope answer root l.bindings)

namespace Lowered

variable {l l' : Lowered}
variable {ls : List Lowered}
variable {start j : Nat}

/- The text takes a branch that comes last or holds. -/
theorem taken_here
    (h : ls ≠ [] → l.answersFor answer root o = .ok true) :
    Taken answer root o start (l :: ls) 0 l := by
  intro x hBind a hLookup
  rw [choicesFrom_cons, hLookup]
  cases ls with
  | nil => rfl
  | cons l₁ ls =>
      exact Alternative.selected_of_true
        (c := .mk start (l.test.simplify o) l.bindings a)
        (h (List.cons_ne_nil l₁ ls)) _

/- The text goes on from a branch that fails. -/
theorem taken_next
    (h : l.answersFor answer root o = .ok false)
    (hl' : ls[j]? = some l')
    (hNext : Taken answer root o (start + 1) ls j l') :
    Taken answer root o start (l :: ls) (j + 1) l' := by
  intro x hBind a hLookup
  rcases List.forall_mem_cons.mp hBind with ⟨⟨a₀, ha₀⟩, hTail⟩
  have hMore : choicesFrom o x (start + 1) ls ≠ [] :=
    List.ne_nil_of_mem (mem_choicesFrom hl' hLookup)
  rw [choicesFrom_cons, ha₀]
  refine (Alternative.selected_of_false
    (c := .mk start (l.test.simplify o) l.bindings a₀) h hMore).trans ?_
  rw [hNext x hTail a hLookup, Nat.add_right_comm]
  rfl

end Lowered

namespace Plan

/-
  In the scope of a branch, the text of its test answers what
  the run has answered.
-/
theorem Retraced.answersFor_eq
    {p : Plan}
    (hLooks : p.LooksShown answer root)
    {before : AccessBindings}
    (hApart : before.names.Disjoint p.names)
    (hNodup : p.names.Nodup)
    {n : Nat}
    {c d : Choices}
    {b : Bool}
    (h : RetracedPart answer root clause G o before p n c d b)
    (hPlaces :
      ∀ place ∈ ((p.lower o n).1.test.simplify o).guardPlaces [],
        (p.lower o n).1.bindings.Sees G place) :
    (p.lower o n).1.answersFor answer root o = .ok b := by
  have hNames := lower_names o p n
  rw [← hNames] at hApart hNodup
  exact hLooks.shown_of_canEnd (h.again (p.lower o n).1.bindings []
    hNodup (AccessBindings.continues_of_disjoint hApart [])
    (AccessBindings.continues_self hNodup []) hPlaces)

/-
  A run that notes branch `k` for an alternation that comes
  after some numbers has come to that branch.
-/
theorem Reached.note
    {Q : Choices → Prop}
    {n m id : Nat}
    {c : Choices}
    {before : AccessBindings}
    (h : Reached answer root clause Q n c before)
    (hnm : n ≤ m)
    (hId : m ≤ id)
    (hLate : Choices.Late (id + 1) Q)
    (k : Nat) :
    Choices.Late m (fun c => Q c ∧ c id = some k) ∧
      Reached answer root clause (fun c => Q c ∧ c id = some k) n
        (c.choose id k) before := by
  have hNone : clause.Holds root Q n c [] := nofun
  rcases noted_branch (k := k) hnm hId hLate h.here hNone with
    ⟨hLate', hQ', -⟩
  exact ⟨hLate', {
    here := hQ'
    shows := fun x hx => by
      rcases h.shows x hx with ⟨a, hFound, hAlike⟩
      exact ⟨a, hFound, fun c hc => hAlike c hc.1⟩
    settled := h.settled.mono (Nat.le_refl n) fun i hi =>
      Choices.choose_of_ne c k (by omega) }⟩

/- So a branch can be retraced while it is noted. -/
theorem Retraces.noted
    {p : Plan}
    (h : Retraces answer root clause G o p)
    (hUniform : p.Uniform)
    {n id : Nat}
    {Q : Choices → Prop}
    {c d : Choices}
    {b : Bool}
    {before : AccessBindings}
    (hId : (p.lower o n).2 ≤ id)
    (hLate : Choices.Late (id + 1) Q)
    (hReached : Reached answer root clause Q n c before)
    (hUnset : ∀ i, n ≤ i → i < (p.lower o n).2 → c i = none)
    {k : Nat}
    (hShows :
      clause.Shows root (fun c => Q c ∧ c id = some k)
        (p.lower o n).1.bindings)
    (hScoped : p.Scoped G before.names)
    (hApart : before.names.Disjoint p.names)
    (hNodup : p.names.Nodup)
    (hSeen : (p.lower o n).1.bindings.GuardsSeen G)
    (hEnd :
      ((p.lower o n).1.test.simplify o).CanEnd (.ofFunction answer) root
        clause (c.choose id k) (.ok b) d) :
    RetracedPart answer root clause G o before p n (c.choose id k) d
      b := by
  rcases hReached.note (hUniform.tidy o n).le hId hLate k with
    ⟨hLate', hReached'⟩
  refine h hLate' hReached' (fun i hi hi' => ?_) hShows hScoped hApart
    hNodup hSeen hEnd
  rw [Choices.choose_of_ne c k (by omega)]
  exact hUnset i hi hi'

/-
  Branches of a numbered alternation are retraced. While
  branch `k` is tried, the choice for the alternation is `k`;
  the text takes the branch that has held, since it tests in
  the scopes of the branches what the run has tested.
-/
theorem retraced_branches
    {ps : List Plan}
    (hUniform : ∀ p ∈ ps, p.Uniform)
    (hLooks : ∀ p ∈ ps, p.LooksShown answer root)
    (h : ∀ p ∈ ps, Retraces answer root clause G o p)
    {n id k : Nat}
    {Q : Choices → Prop}
    {c d : Choices}
    {b : Bool}
    {before : AccessBindings}
    (hId : (lowerAll o ps n).2 ≤ id)
    (hLate : Choices.Late (id + 1) Q)
    (hReached : Reached answer root clause Q n c before)
    (hUnset : ∀ i, n ≤ i → i < (lowerAll o ps n).2 → c i = none)
    (hShows :
      ∀ j l, (lowerAll o ps n).1[j]? = some l →
        clause.Shows root (fun c => Q c ∧ c id = some (k + j))
          l.bindings)
    (hScoped : ScopedEach G ps before.names)
    (hApart : ∀ p ∈ ps, before.names.Disjoint p.names)
    (hNodup : ∀ p ∈ ps, p.names.Nodup)
    (hSeen : ∀ l ∈ (lowerAll o ps n).1, l.bindings.GuardsSeen G)
    (hPlaces :
      ∀ j l, (lowerAll o ps n).1[j]? = some l →
        j + 1 < (lowerAll o ps n).1.length →
        ∀ place ∈ (l.test.simplify o).guardPlaces [],
          l.bindings.Sees G place)
    (hEnd :
      Test.CanEndBranches (.ofFunction answer) root clause id k
        (Test.simplifyAll o ((lowerAll o ps n).1.map Lowered.test))
        c (.ok b) d) :
    RetracedFirst answer root G before (lowerAll o ps n).1
      (Test.guardPlacesOfAll
        (Test.simplifyAll o ((lowerAll o ps n).1.map Lowered.test)))
      (fun can =>
        Test.CanEndBranches can root clause id k
          (Test.simplifyAll o ((lowerAll o ps n).1.map Lowered.test))
          c (.ok b) d)
      n (id + 1) c d b
      (fun j l => d id = some (k + j) ∧
        Lowered.Taken answer root o k (lowerAll o ps n).1 j l) := by
  induction ps generalizing n c k with
  | nil =>
      rcases hEnd with ⟨rfl, hEq⟩
      cases hEq
      have hLow : n ≤ id := hId
      exact {
        kept := fun i hi => Choices.forget_of_ne c (by omega)
        again := fun _ _ _ _ _ _ => ⟨rfl, rfl⟩
        recorded := nofun
        found := nofun }
  | cons p ps ih =>
      rcases List.forall_mem_cons.mp hUniform with ⟨hHead, hTail⟩
      rcases List.forall_mem_cons.mp hLooks with ⟨hLook, hLooks'⟩
      rcases List.forall_mem_cons.mp h with ⟨hp, hps⟩
      rcases List.forall_mem_cons.mp hApart with ⟨hDisjoint, hApart'⟩
      rcases List.forall_mem_cons.mp hNodup with ⟨hOwn, hNodup'⟩
      rcases List.forall_mem_cons.mp hSeen with ⟨hSee, hSeen'⟩
      rcases hScoped with ⟨hScope, hScopes⟩
      have hLow := (hHead.tidy o n).le
      have hHigh := le_lowerAll o hTail (p.lower o n).2
      have hId' : (lowerAll o ps (p.lower o n).2).2 ≤ id := hId
      have hLeId : (p.lower o n).2 ≤ id := hHigh.trans hId
      have hNoted : ∀ i, i ≠ id → c.choose id k i = c i :=
        fun i hi => Choices.choose_of_ne c k hi
      have hOutside :
          ∀ i, i < n ∨ id + 1 ≤ i → c.choose id k i = c i :=
        fun i hi => hNoted i (by omega)
      have hShow :
          clause.Shows root (fun c => Q c ∧ c id = some k)
            (p.lower o n).1.bindings :=
        hShows 0 _ rfl
      have hFirst {b e} :=
        hp.noted hHead (d := e) (b := b) hLeId hLate hReached
          (fun i hi hi' => hUnset i hi (hi'.trans_le hHigh)) hShow
          hScope hDisjoint hOwn hSee
      -- The text asks the test of a branch that others follow.
      have hAnswer {b e}
          (hPart :
            RetracedPart answer root clause G o before p n
              (c.choose id k) e b)
          (hMore : (lowerAll o ps (p.lower o n).2).1 ≠ []) :=
        hPart.answersFor_eq hLook hDisjoint hOwn
          (hPlaces 0 _ rfl
            (Nat.succ_lt_succ (List.length_pos_iff.mpr hMore)))
      have hUnset' :
          ∀ i, (p.lower o n).2 ≤ i →
            i < (lowerAll o ps (p.lower o n).2).2 →
              c.choose id k i = none := by
        intro i hi hi'
        rw [hNoted i (by omega)]
        exact hUnset i (hLow.trans hi) hi'
      rcases hEnd with ⟨e, hHead', hRest⟩ | ⟨hNe, hHead'⟩
      · have hPart := hFirst hHead'
        have hKept : ∀ i, i < n ∨ id + 1 ≤ i → e i = c i := by
          intro i hi
          rw [hPart.kept i (by omega), hOutside i hi]
        have hUnset'' :
            ∀ i, (p.lower o n).2 ≤ i →
              i < (lowerAll o ps (p.lower o n).2).2 → e i = none := by
          intro i hi hi'
          rw [hPart.kept i (.inr hi)]
          exact hUnset' i hi hi'
        have hShows' :
            ∀ j l, (lowerAll o ps (p.lower o n).2).1[j]? = some l →
              clause.Shows root
                (fun c => Q c ∧ c id = some (k + 1 + j)) l.bindings := by
          intro j l hl
          have hShow := hShows (j + 1) l hl
          rw [← Nat.add_assoc, Nat.add_right_comm] at hShow
          exact hShow
        have hOthers := ih hTail hLooks' hps hId'
          (hReached.move hLate hLow hKept) hUnset'' hShows' hScopes
          hApart' hNodup' hSeen'
          (fun j l hl hj => hPlaces (j + 1) l hl (Nat.succ_lt_succ hj))
          hRest
        refine RetracedFirst.congr
          (.next hPart hOthers hOutside hLow (Nat.le_succ_of_le hLeId)
            (hHead.choicesWithin o n) ?_)
          (fun _ => rfl) fun _ hEnds => Or.inl ⟨e, hEnds⟩
        rintro j l hl ⟨hFound, hTaken⟩
        rw [Nat.add_right_comm] at hFound
        have hMore := List.ne_nil_of_mem (List.mem_of_getElem? hl)
        exact ⟨hFound, Lowered.taken_next (hAnswer hPart hMore) hl hTaken⟩
      · have hb : b = true := by
          cases b with
          | true => rfl
          | false => exact absurd rfl hNe
        subst hb
        have hPart := hFirst hHead'
        have hRange := choicesWithin_lowerAll hTail
          (fun q hq => (hTail q hq).choicesWithin o) (p.lower o n).2
        have hFound : d id = some k := by
          rw [hPart.kept id (.inr hLeId)]
          exact Choices.choose_self c id k
        exact RetracedFirst.congr
          (.here hPart hOutside (Nat.le_succ_of_le hLeId) hRange hUnset'
            ⟨hFound, Lowered.taken_here (hAnswer hPart)⟩)
          (fun _ => rfl) fun _ hEnds => Or.inr ⟨nofun, hEnds⟩

/- A numbered alternation that has failed has no branch. -/
theorem eq_none_of_canEndBranches
    {can : GuardAnswers}
    {i k : Nat}
    {ts : List Test}
    {c d : Choices}
    (h : Test.CanEndBranches can root clause i k ts c (.ok false) d) :
    d i = none := by
  induction ts generalizing k c with
  | nil =>
      rw [h.1]
      exact Choices.forget_self c i
  | cons t ts ih =>
      rcases h with ⟨e, -, hRest⟩ | ⟨hNe, -⟩
      · exact ih hRest
      · exact absurd rfl hNe

namespace RetracedFirst

variable {before : AccessBindings}
variable {ls : List Lowered}
variable {l₀ : Lowered}
variable {places : List Nat → List (GuardId × List Nat)}
variable {ends : GuardAnswers → Prop}
variable {n id : Nat}
variable {c d : Choices}
variable {b : Bool}

/-
  Branches of a numbered alternation are retraced with its
  own choices: these go with the branch that has held.
-/
theorem joined
    (h :
      RetracedFirst answer root G before ls places ends n (id + 1) c d b
        fun j l => d id = some j ∧
          Lowered.Taken answer root o 0 ls j l)
    (hNames : Lowered.SameNames ls)
    (h₀ : l₀ ∈ ls)
    (hNone : b = false → d id = none) :
    Retraced answer root G before (Lowered.joined o id ls l₀.bindings)
      (fun around => places (id :: around)) ends n (id + 1) c d b where
  kept := h.kept
  again := by
    intro bindings around hNodup hBefore hJoined
    refine h.again bindings (id :: around) hNodup (hBefore.mono id) ?_
    intro l hl e he a hLookup
    rcases Lowered.mem_joined hNames h₀ hl he with hOwn | hChoice
    · exact hJoined.mono id e hOwn a hLookup
    · rcases hJoined _ hChoice a hLookup with rfl | ⟨i, hi, hEq⟩
      · exact Or.inr ⟨id, List.mem_cons_self, _, Lowered.choice_eq ..⟩
      · exact Or.inr ⟨i, List.mem_cons_of_mem id hi, hEq⟩
  recorded := by
    intro i cs hChoice k hk
    rcases Lowered.hasChoice_joined hNames h₀ hChoice with
      ⟨rfl, x, hx, rfl⟩ | ⟨l, hl, hOwn⟩
    · cases b with
      | false =>
          rw [hNone rfl] at hk
          cases hk
      | true =>
          rcases h.found rfl with ⟨j, l, hl, -, -, hFound, hTaken⟩
          have hBind := Lowered.exists_lookup_of_sameNames hNames h₀ hx
          rcases hBind l (List.mem_of_getElem? hl) with ⟨a, hLookup⟩
          cases hFound.symm.trans hk
          exact ⟨_, hTaken x hBind a hLookup, Nat.zero_add _⟩
    · exact h.recorded l hl i cs hOwn k hk
  settled := by
    rintro hb ⟨x, a⟩ he e hKept
    rcases h.found hb with ⟨j, l, hl, hSettled, -, hFound, hTaken⟩
    have hMem := List.mem_of_getElem? hl
    rcases Lowered.cases_of_mem_joined hNames h₀ he with ⟨hx, hAll | hEq⟩
    · exact hSettled _ (hAll l hMem) e hKept
    · have hBind := Lowered.exists_lookup_of_sameNames hNames h₀ hx
      rcases hBind l hMem with ⟨a, hLookup⟩
      have hNoted : e id = some j :=
        (hKept id (Nat.lt_succ_self id)).trans hFound
      rw [hEq, Lowered.resolve_choice o root hNoted hl hLookup,
        Lowered.choice_eq, Access.shown, Access.shownChoice_eq,
        hTaken x hBind a hLookup]
      exact hSettled _ (mem_of_lookup_eq hLookup) e hKept
  chosen := by
    rintro hb ⟨x, a⟩ he i cs hEq
    rcases h.found hb with ⟨j, l, hl, -, hChosen, hFound, -⟩
    rcases Lowered.cases_of_mem_joined hNames h₀ he with ⟨-, hAll | hOwn⟩
    · exact hChosen _ (hAll l (List.mem_of_getElem? hl)) i cs hEq
    · cases hOwn.symm.trans hEq
      exact ⟨j, hFound⟩

end RetracedFirst

end Plan

end MatchCompiler

------------------------------------------------------------
-- Alternations
------------------------------------------------------------

namespace MatchCompiler

variable {answer : GuardId → ValueBindings → Bool}
variable {root : Value}
variable {clause : AccessBindings}
variable {G : Guard → Prop}
variable {o : LoweringOptions}

namespace Plan

/-
  An alternation has no number if its branches agree on all
  names, or else joins their names under the next number.
-/
theorem lower_alt_cases
    {p : Plan}
    {ps : List Plan}
    (hNodup : ∀ q ∈ p :: ps, q.names.Nodup)
    (hSame : ∀ q ∈ p :: ps, ∀ q' ∈ p :: ps, q.names ⊆ q'.names)
    (n : Nat) :
    (Plan.alt (p :: ps)).lower o n =
        ({ test := .or ((lowerAll o (p :: ps) n).1.map Lowered.test)
           bindings := (p.lower o n).1.bindings },
          (lowerAll o (p :: ps) n).2) ∧
      (∀ l ∈ (lowerAll o (p :: ps) n).1,
        (p.lower o n).1.bindings ⊆ l.bindings ∧
          l.bindings ⊆ (p.lower o n).1.bindings) ∨
    (Plan.alt (p :: ps)).lower o n =
        ({ test := .alt (lowerAll o (p :: ps) n).2
             ((lowerAll o (p :: ps) n).1.map Lowered.test)
           bindings := Lowered.joined o (lowerAll o (p :: ps) n).2
             (lowerAll o (p :: ps) n).1 (p.lower o n).1.bindings },
          (lowerAll o (p :: ps) n).2 + 1) ∧
      ∃ x ∈ (p.lower o n).1.bindings.names,
        (x, Lowered.choice o (lowerAll o (p :: ps) n).2
            (lowerAll o (p :: ps) n).1 x) ∈
          Lowered.joined o (lowerAll o (p :: ps) n).2
            (lowerAll o (p :: ps) n).1 (p.lower o n).1.bindings := by
  have hNames := sameNames_lowerAll o hNodup hSame n
  rcases Lowered.join_cases o (p.lower o n).1
    (lowerAll o ps (p.lower o n).2).1
    (lowerAll o ps (p.lower o n).2).2 with
    ⟨hAgree, hJoin⟩ | ⟨⟨b, hb, hDiffer⟩, hJoin⟩
  · exact Or.inl ⟨hJoin, fun l hl =>
      Lowered.same_of_agree hNames List.mem_cons_self hAgree hl⟩
  · refine Or.inr ⟨hJoin, b.1, List.mem_map.mpr ⟨b, hb, rfl⟩, ?_⟩
    refine List.mem_map.mpr ⟨b, hb, ?_⟩
    change (if Lowered.agreeOn ((p.lower o n).1 :: _) b.1 b.2 then _
      else _) = _
    rw [hDiffer]
    rfl

/- Alternations are retraced by their branches. -/
theorem retraces_alt
    {ps : List Plan}
    (hUniform : ∀ p ∈ ps, p.Uniform)
    (hDistinct : ∀ p ∈ ps, p.names.Nodup)
    (hSame : ∀ p ∈ ps, ∀ q ∈ ps, p.names ⊆ q.names)
    (hLooks : ∀ p ∈ ps, p.LooksShown answer root)
    (h : ∀ p ∈ ps, Retraces answer root clause G o p) :
    Retraces answer root clause G o (.alt ps) := by
  intro n Q c d b before hLate hReached hUnset hShows hScoped hApart
    hNodup hSeen hEnd
  cases ps with
  | nil =>
      rcases hEnd with ⟨rfl, hEq⟩
      exact .still AccessBindings.not_hasChoice_nil
        (fun _ _ _ _ _ _ => ⟨rfl, hEq⟩) fun _ => nofun
  | cons p ps =>
      have hp : p ∈ p :: ps := List.mem_cons_self
      have h₀ : (p.lower o n).1 ∈ (lowerAll o (p :: ps) n).1 :=
        List.mem_cons_self
      have hNames := sameNames_lowerAll o hDistinct hSame n
      have hApart' : ∀ q ∈ p :: ps, before.names.Disjoint q.names :=
        fun q hq => List.disjoint_of_subset_right (hSame q hq p hp) hApart
      unfold RetracedPart
      rcases lower_alt_cases (o := o) hDistinct hSame n with
        ⟨hLower, hAgree⟩ | ⟨hLower, x, hx, hChoice⟩
      · rw [hLower] at hLate hUnset hShows hSeen hEnd ⊢
        have hShows' :
            ∀ l ∈ (lowerAll o (p :: ps) n).1,
              clause.Shows root Q l.bindings :=
          fun l hl => hShows.subset (hAgree l hl).2
        have hSeen' :
            ∀ l ∈ (lowerAll o (p :: ps) n).1, l.bindings.GuardsSeen G :=
          fun l hl => hSeen.subset (hAgree l hl).2
        have hParts := retraced_disjunction hUniform h hLate hReached
          hUnset hShows' hScoped hApart' hDistinct hSeen' h₀ hAgree hEnd
        exact hParts
      · rw [hLower] at hLate hUnset hShows hSeen hEnd ⊢
        have hShows' :
            ∀ j l, (lowerAll o (p :: ps) n).1[j]? = some l →
              clause.Shows root
                (fun c => Q c ∧ c (lowerAll o (p :: ps) n).2 = some (0 + j))
                l.bindings := by
          intro j l hl
          rw [Nat.zero_add]
          exact shows_branch hNames rfl hShows hl
        have hSeen' :
            ∀ l ∈ (lowerAll o (p :: ps) n).1, l.bindings.GuardsSeen G :=
          fun l hl i cs hOwn => hSeen i cs
            (Lowered.hasChoice_of_branch hNames h₀ hl hOwn)
        have hBind := Lowered.exists_lookup_of_sameNames hNames h₀ hx
        have hPlaces :
            ∀ j l, (lowerAll o (p :: ps) n).1[j]? = some l →
              j + 1 < (lowerAll o (p :: ps) n).1.length →
              ∀ place ∈ (l.test.simplify o).guardPlaces [],
                l.bindings.Sees G place := by
          intro j l hl hj
          rcases hBind l (List.mem_of_getElem? hl) with ⟨a, hLookup⟩
          exact hSeen _ _ (.here hChoice) _
            (Lowered.mem_dropLast_choicesFrom hBind hl hj hLookup)
        have hParts := retraced_branches hUniform hLooks h (Nat.le_refl _)
          hLate hReached
          (fun i hi hi' => hUnset i hi (Nat.lt_succ_of_lt hi'))
          hShows' hScoped hApart' hDistinct hSeen' hPlaces hEnd
        simp only [Nat.zero_add] at hParts
        refine hParts.joined hNames h₀ ?_
        rintro rfl
        exact eq_none_of_canEndBranches hEnd

/- Every uniform plan that reads paths is retraced. -/
theorem Uniform.retraces
    (hClause : clause.names.Nodup)
    (hUses :
      ∀ g, G g → ∀ bs bs' : ValueBindings,
        (∀ x ∈ g.uses, bs.lookup x = bs'.lookup x) →
        answer g.id bs = answer g.id bs')
    {p : Plan}
    (h : p.Uniform)
    (hLooks : p.LooksShown answer root) :
    Retraces answer root clause G o p := by
  induction h with
  | test hLeaf hSteady => exact retraces_leaf hLeaf
  | guard id => exact retraces_guard hClause hUses id
  | bind x hAccess hInner ih =>
      cases hLooks with
      | bind _ hShown hLooks' =>
          exact retraces_bind x hAccess hShown (ih hLooks')
  | alt hBranches hNodup hSame ih =>
      cases hLooks with
      | alt hLooks' =>
          exact retraces_alt hBranches hNodup hSame hLooks'
            fun p hp => ih p hp (hLooks' p hp)
  | all hParts ih =>
      cases hLooks with
      | all hLooks' =>
          exact retraces_all hParts fun p hp => ih p hp (hLooks' p hp)

end Plan

end MatchCompiler

------------------------------------------------------------
-- Clauses
------------------------------------------------------------

namespace MatchCompiler

variable {answer : GuardId → ValueBindings → Bool}
variable {root : Value}

/-
  Where the clause of an accepted arm holds with a pure host
  and the guards of branches see what they use, the branch
  that is noted for an alternation is the one that the text
  of its choice takes, there is one for each choice that a
  name is bound to, and the text of each name leads where
  the run reads.
-/
theorem CheckedArm.AcceptedFrom.recorded_eq_selected
    {arm : CheckedArm}
    {p : Pattern}
    (h : arm.AcceptedFrom p)
    (o : LoweringOptions)
    (i : Nat)
    {σ : Type}
    {host : GuardHost σ}
    (hHost : host.AnsweredBy answer)
    (hUses : p.GuardsReadUses answer)
    (hSeen : (arm.clause o i).bindings.GuardsSeen (· ∈ p.guards))
    {s s' : σ}
    {d : Choices}
    (hRun :
      (arm.clause o i).test.eval host root (arm.clause o i).bindings
        (Choices.empty, s) = (.ok true, (d, s'))) :
    (arm.clause o i).bindings.Recorded answer root d ∧
    (arm.clause o i).bindings.Chosen d ∧
    ∀ b ∈ (arm.clause o i).bindings,
      b.2.shown answer root = b.2.resolve root d := by
  rcases h.names_clause o i with ⟨hNames, hNodup⟩
  have hLowered := lower_plan o h.regular i
  have hRetraces :
      (arm.plan o).Retraces answer root (arm.clause o i).bindings
        (· ∈ p.guards) o :=
    (h.uniform o).retraces hNodup (fun g hg bs bs' => hUses g hg bs bs')
      (arm.looksShown_plan o)
  have hShows :
      (arm.clause o i).bindings.Shows root (fun _ => True)
        (arm.clause o i).bindings := by
    rintro ⟨x, a⟩ hb
    exact ⟨a, lookup_eq_of_mem hNodup hb, fun _ _ => rfl⟩
  have hReached :
      Plan.Reached answer root (arm.clause o i).bindings
        (fun _ => True) 0 Choices.empty [] :=
    ⟨trivial, nofun, nofun⟩
  have hPart := @hRetraces 0 (fun _ => True) Choices.empty d true []
    (fun _ _ _ => id) hReached (fun _ _ _ => rfl)
  unfold Plan.RetracedPart at hPart
  rw [hLowered] at hPart
  have hDone := hPart hShows (h.scoped o) (List.disjoint_nil_left _)
    (hNames ▸ hNodup) hSeen (Test.canEnd_of_eval hHost _ hRun)
  exact ⟨hDone.recorded, hDone.chosen rfl, fun b hb =>
    (hDone.settled rfl b hb d fun _ _ => rfl).symm⟩

namespace AccessBindings

variable {G : Guard → Prop}

/- Names that depend on no branch give guards nothing to see. -/
theorem guardsSeen_of_paths
    {bindings : AccessBindings}
    (h : ∀ b ∈ bindings, ∀ i cs, b.2 ≠ .choice i cs) :
    bindings.GuardsSeen G := by
  intro i cs hChoice
  cases hChoice with
  | here hMem => exact absurd rfl (h _ hMem _ _)
  | inside hMem => exact absurd rfl (h _ hMem _ _)

/- The guards in the branches of one choice see what they use. -/
theorem guardsSeen_choice
    {x : String}
    {i : Nat}
    {cs : List Alternative}
    (hOwn :
      ∀ c ∈ cs.dropLast, ∀ place ∈ c.test.guardPlaces [],
        c.bindings.Sees G place)
    (hInner : ∀ c ∈ cs, AccessBindings.GuardsSeen G c.bindings) :
    AccessBindings.GuardsSeen G [(x, .choice i cs)] := by
  intro j ds hChoice
  cases hChoice with
  | here hMem =>
      cases List.mem_singleton.mp hMem
      exact hOwn
  | inside hMem hc hIn =>
      cases List.mem_singleton.mp hMem
      exact hInner _ hc j ds hIn

end AccessBindings

/- A guard that holds if `x` is greater than 3. -/
def aboveThree
    (_ : GuardId)
    (bs : ValueBindings) : Bool :=
  match bs.lookup "x" with
  | some (.int n) => 3 < n
  | _ => false

/- It reads the name that it uses, and needs it. -/
theorem aboveThree_reads
    {p : Pattern}
    (h : ∀ g ∈ p.guards, "x" ∈ g.uses) :
    p.GuardsReadUses aboveThree ∧
    ∀ id (bs : ValueBindings), bs.lookup "x" = none →
      aboveThree id bs = false := by
  constructor
  · intro g hg bs bs' hSame
    simp only [aboveThree, hSame "x" (h g hg)]
  · intro id bs hNone
    simp only [aboveThree, hNone]

/-
  Whatever side of a pair is 1, if the other one is greater
  than 3; or else its right side.
-/
def otherSidePattern : Pattern :=
  let one := Pattern.literal {} (.int 1 none)
  let x := Pattern.bind {} "x"
  .alt {}
    [.guarded {} (.alt {} [pairPattern x one, pairPattern one x])
      { id := 0, text := "x > 3", uses := ["x"] },
     pairPattern (.wildcard {}) x]

/- What checking makes of it. -/
def otherSideArm : CheckedArm :=
  let one := Checked.literal {} (.value (.int 1 none))
  let x := Checked.bind {} "x" (.wildcard {})
  { pattern :=
      .alt {}
        [.guarded {}
          (.alt {}
            [.tuple {} [(0, x), (1, one)], .tuple {} [(0, one), (1, x)]])
          0,
         .tuple {} [(0, .wildcard {}), (1, x)]]
    bindings := [⟨"x", 0, {}⟩] }

/- The guard is asked about the side that is not 1. -/
theorem otherSideArm_recorded :
    let clause := otherSideArm.clause {} 0
    let host : GuardHost Unit := fun id bs => pure (aboveThree id bs)
    let root := Value.tuple [.int 1, .int 5]
    let run := clause.test.eval host root clause.bindings (.empty, ())
    otherSideArm.AcceptedFrom otherSidePattern ∧
    host.AnsweredBy aboveThree ∧
    otherSidePattern.GuardsReadUses aboveThree ∧
    clause.bindings.GuardsSeen (· ∈ otherSidePattern.guards) ∧
    (run.1, run.2.1 0, run.2.1 1) = (.ok true, some 1, some 0) ∧
    clause.bindings.Recorded aboveThree root run.2.1 ∧
    clause.bindings.Chosen run.2.1 ∧
    ∀ b ∈ clause.bindings,
      b.2.shown aboveThree root = b.2.resolve root run.2.1 := by
  intro clause host root run
  have hArm : otherSideArm.AcceptedFrom otherSidePattern :=
    ⟨pairSchemas, { table := {}, marker := 'k' }, 1, rfl⟩
  have hUses := aboveThree_reads (p := otherSidePattern)
    (List.forall_mem_singleton.mpr (List.mem_singleton_self _))
  have hSeen :
      clause.bindings.GuardsSeen (· ∈ otherSidePattern.guards) := by
    have hPaths {x a} (ha : ∀ i cs, a ≠ Access.choice i cs) :
        AccessBindings.GuardsSeen (· ∈ otherSidePattern.guards)
          [(x, a)] :=
      AccessBindings.guardsSeen_of_paths
        (List.forall_mem_singleton.mpr ha)
    refine AccessBindings.guardsSeen_choice ?_ ?_
    · refine List.forall_mem_singleton.mpr ?_
      refine List.forall_mem_singleton.mpr fun g hg _ => ?_
      cases List.mem_singleton.mp hg
      exact List.forall_mem_singleton.mpr ⟨_, rfl, nofun⟩
    · refine List.forall_mem_cons.mpr
        ⟨?_, List.forall_mem_singleton.mpr (hPaths nofun)⟩
      refine AccessBindings.guardsSeen_choice ?_ ?_
      · exact List.forall_mem_singleton.mpr nofun
      · exact List.forall_mem_cons.mpr ⟨hPaths nofun,
          List.forall_mem_singleton.mpr (hPaths nofun)⟩
  have hHost : host.AnsweredBy aboveThree := fun _ _ _ => rfl
  have hRun :
      clause.test.eval host root clause.bindings (.empty, ()) =
        (.ok true, (run.2.1, ())) := rfl
  exact ⟨hArm, hHost, hUses.1, hSeen, rfl,
    hArm.recorded_eq_selected {} 0 hHost hUses.1 hSeen hRun⟩

/-
  A pair whose left side is greater than 3, or the right side
  of a pair with 7; or else the left side of any pair.
-/
def sevenPattern : Pattern :=
  let x := Pattern.bind {} "x"
  let any := Pattern.wildcard {}
  .alt {}
    [.alt {}
      [.guarded {} (pairPattern x any)
        { id := 0, text := "x > 3", uses := ["x"] },
       pairPattern (.literal {} (.int 7 none)) x],
     pairPattern x any]

/- What checking makes of it. -/
def sevenArm : CheckedArm :=
  let x := Checked.bind {} "x" (.wildcard {})
  let any := Checked.wildcard {}
  { pattern :=
      .alt {}
        [.alt {}
          [.guarded {} (.tuple {} [(0, x), (1, any)]) 0,
           .tuple {} [(0, .literal {} (.value (.int 7 none))), (1, x)]],
         .tuple {} [(0, x), (1, any)]]
    bindings := [⟨"x", 0, {}⟩] }

/-
  In the first branch the text gives the guard the name as it
  is after the inner alternation: where its guard fails, the
  right side. The run has asked about the left side only, and
  has gone on.
-/
theorem sevenArm_selectsOther :
    let clause := sevenArm.clause {} 0
    let host : GuardHost Unit := fun id bs => pure (aboveThree id bs)
    let root := Value.tuple [.int 1, .int 5]
    let run := clause.test.eval host root clause.bindings (.empty, ())
    sevenArm.AcceptedFrom sevenPattern ∧
    host.AnsweredBy aboveThree ∧
    sevenPattern.GuardsReadUses aboveThree ∧
    (∀ id (bs : ValueBindings), bs.lookup "x" = none →
      aboveThree id bs = false) ∧
    (run.1, run.2.1 1) = (.ok true, some 1) ∧
    clause.bindings.values root run.2.1 = .ok [("x", .int 1)] ∧
    (∀ b ∈ clause.bindings,
      b.2.shown aboveThree root = .ok (.int 5)) ∧
    ¬ clause.bindings.Recorded aboveThree root run.2.1 := by
  intro clause host root run
  have hArm : sevenArm.AcceptedFrom sevenPattern :=
    ⟨pairSchemas, { table := {}, marker := 'k' }, 1, rfl⟩
  have hReads := aboveThree_reads (p := sevenPattern)
    (List.forall_mem_singleton.mpr (List.mem_singleton_self _))
  refine ⟨hArm, fun _ _ _ => rfl, hReads.1, hReads.2, rfl, rfl,
    List.forall_mem_singleton.mpr rfl, ?_⟩
  intro hRecorded
  rcases hRecorded 1 _ (.here List.mem_cons_self) 1 rfl with
    ⟨b, hTaken, hBranch⟩
  cases hTaken
  cases hBranch

end MatchCompiler
