import Mathlib.Data.List.Nodup
import Mathlib.Data.List.Perm.Subperm
import MatchCompiler.Proofs.Scope

/-
  This file runs plans and compares that with the tests that
  they are lowered to.

  A run of a plan carries the values of the names bound so
  far, where a lowered test reads them again from the root
  through the choices noted so far. While a branch of an
  alternation is tried, the bindings of the clause show the
  accesses of that branch, and they go on showing the values
  bound so far, whatever later parts note.

  Key definitions include:
    * `Plan.Yields`
    * `AccessBindings.Shows`
    * `AccessBindings.Holds`
    * `Plan.Reflects`
    * `Plan.Simulated`

  Key theorems include:
    * `Plan.Yields.perm_names`
    * `Plan.Uniform.simulated`
    * `CheckedArm.AcceptedFrom.yields_of_run`
-/

------------------------------------------------------------
-- Runs Of Plans
------------------------------------------------------------

namespace MatchCompiler

/- What matching gives: a fault, no match, or bindings. -/
abbrev MatchResult :=
  Except ShapeMismatch (Option ValueBindings)

/- The bindings stay as they are if the answer is yes. -/
def ValueBindings.keepIf
    (env : ValueBindings)
    (b : Bool) : Option ValueBindings :=
  if b then some env else none

namespace Plan

mutual

/-
  Under possible answers to its guards and with some names
  bound before, a plan can give a result. A name is bound
  after the part that it names has matched.
-/
def Yields
    (can : GuardAnswers)
    (root : Value) : Plan → ValueBindings → MatchResult → Prop
| .test (.guard id) => fun env r =>
    ∃ b, can id env b ∧ r = .ok (ValueBindings.keepIf env b)
| .test t => fun env r =>
    r = (t.reading root .empty).map (ValueBindings.keepIf env)
| .bind x a p => fun env r =>
    (∃ env', p.Yields can root env (.ok (some env')) ∧
      r = (a.resolve root .empty).map fun v => some ((x, v) :: env')) ∨
    ((∀ env', r ≠ .ok (some env')) ∧ p.Yields can root env r)
| .alt ps => YieldsFirst can root ps
| .all ps => YieldsInTurn can root ps
termination_by structural p => p

/- The first branch that does not fail decides. -/
def YieldsFirst
    (can : GuardAnswers)
    (root : Value) : List Plan → ValueBindings → MatchResult → Prop
| [] => fun _ r => r = .ok none
| p :: ps => fun env r =>
    (p.Yields can root env (.ok none) ∧ YieldsFirst can root ps env r) ∨
    (r ≠ .ok none ∧ p.Yields can root env r)
termination_by structural ps => ps

/- Each part starts from the bindings of those before. -/
def YieldsInTurn
    (can : GuardAnswers)
    (root : Value) : List Plan → ValueBindings → MatchResult → Prop
| [] => fun env r => r = .ok (some env)
| p :: ps => fun env r =>
    (∃ env', p.Yields can root env (.ok (some env')) ∧
      YieldsInTurn can root ps env' r) ∨
    ((∀ env', r ≠ .ok (some env')) ∧ p.Yields can root env r)
termination_by structural ps => ps

end

variable {can : GuardAnswers}
variable {root : Value}

/- A leaf keeps the bindings if it holds. -/
theorem yields_leaf
    {t : Test}
    (h : t.IsLeaf)
    (env : ValueBindings)
    (r : MatchResult) :
    (Plan.test t).Yields can root env r ↔
      r = (t.reading root .empty).map (ValueBindings.keepIf env) := by
  cases t <;> first | exact h.elim | rfl

end Plan

end MatchCompiler

------------------------------------------------------------
-- Names Of A Run
------------------------------------------------------------

namespace MatchCompiler

/- The names of some values. -/
def ValueBindings.names (env : ValueBindings) : List String :=
  env.map Prod.fst

namespace Plan

variable {can : GuardAnswers}
variable {root : Value}

/- A run that matches adds names to those bound before. -/
def AddsNames
    (can : GuardAnswers)
    (root : Value)
    (p : Plan)
    (names : List String) : Prop :=
  ∀ ⦃env env' : ValueBindings⦄,
    p.Yields can root env (.ok (some env')) →
    (ValueBindings.names env').Perm (names ++ ValueBindings.names env)

theorem eq_of_keepIf
    {env env' : ValueBindings}
    {r : Except ShapeMismatch Bool}
    (h : .ok (some env') = r.map (ValueBindings.keepIf env)) :
    env' = env := by
  rcases r with cause | b
  · cases h
  · cases b with
    | false => cases h
    | true =>
        cases h
        rfl

theorem addsNames_first
    {names : List String}
    {ps : List Plan}
    (h : ∀ p ∈ ps, AddsNames can root p names)
    {env env' : ValueBindings}
    (hRun : YieldsFirst can root ps env (.ok (some env'))) :
    (ValueBindings.names env').Perm
      (names ++ ValueBindings.names env) := by
  induction ps with
  | nil => cases hRun
  | cons p ps ih =>
      rcases List.forall_mem_cons.mp h with ⟨hHead, hTail⟩
      rcases hRun with ⟨-, hRest⟩ | ⟨-, hHere⟩
      · exact ih hTail hRest
      · exact hHead hHere

theorem addsNames_inTurn
    {ps : List Plan}
    (h : ∀ p ∈ ps, AddsNames can root p p.names)
    {env env' : ValueBindings}
    (hRun : YieldsInTurn can root ps env (.ok (some env'))) :
    (ValueBindings.names env').Perm
      (namesOfAll ps ++ ValueBindings.names env) := by
  induction ps generalizing env with
  | nil =>
      cases hRun
      exact .refl _
  | cons p ps ih =>
      rcases List.forall_mem_cons.mp h with ⟨hHead, hTail⟩
      rcases hRun with ⟨env₁, hHere, hRest⟩ | ⟨hNe, -⟩
      · have hNames := (ih hTail hRest).trans
          ((hHead hHere).append_left (namesOfAll ps))
        refine hNames.trans ?_
        rw [← List.append_assoc]
        exact List.perm_append_comm.append_right _
      · exact absurd rfl (hNe env')

/- A uniform plan adds the names that it binds. -/
theorem Yields.perm_names
    {p : Plan}
    (h : p.Uniform) :
    AddsNames can root p p.names := by
  induction h with
  | test hLeaf hSteady =>
      intro env env' hRun
      rw [eq_of_keepIf ((yields_leaf hLeaf env _).mp hRun)]
      exact .refl _
  | guard id =>
      rintro env env' ⟨b, -, hRun⟩
      rw [eq_of_keepIf (r := .ok b) hRun]
      exact .refl _
  | @bind x a p hAccess hInner ih =>
      intro env env' hRun
      rcases hRun with ⟨env₁, hHere, hEq⟩ | ⟨hNe, -⟩
      · rcases hRead : a.resolve root .empty with cause | v
        · rw [hRead] at hEq
          cases hEq
        · rw [hRead] at hEq
          cases hEq
          exact (ih hHere).cons x
      · exact absurd rfl (hNe env')
  | @alt ps hBranches hNodup hSame ih =>
      intro env env' hRun
      cases ps with
      | nil => cases hRun
      | cons q qs =>
          have hq : q ∈ q :: qs := List.mem_cons_self
          refine addsNames_first (fun p hp env env' hHere => ?_) hRun
          -- All branches bind the names of the first.
          have hPerm : p.names.Perm q.names := by
            refine (List.perm_ext_iff_of_nodup (hNodup p hp)
              (hNodup q hq)).mpr fun x => ?_
            exact ⟨fun hx => hSame p hp q hq hx,
              fun hx => hSame q hq p hp hx⟩
          exact (ih p hp hHere).trans (hPerm.append_right _)
  | all hParts ih =>
      intro env env' hRun
      exact addsNames_inTurn ih hRun

end Plan

end MatchCompiler

------------------------------------------------------------
-- What Bindings Show
------------------------------------------------------------

namespace MatchCompiler

/- A condition on choices that reads late numbers only. -/
def Choices.Late
    (m : Nat)
    (Q : Choices → Prop) : Prop :=
  ∀ c d : Choices, (∀ i, m ≤ i → c i = d i) → Q c → Q d

theorem Choices.Late.mono
    {n m : Nat}
    {Q : Choices → Prop}
    (h : Choices.Late m Q)
    (hLe : n ≤ m) :
    Choices.Late n Q :=
  fun c d hSame hQ => h c d (fun i hi => hSame i (hLe.trans hi)) hQ

/- A part keeps the choices outside of its range. -/
theorem Lowered.Tidy.kept
    {l : Lowered}
    {n m : Nat}
    (h : l.Tidy n m)
    {can : GuardAnswers}
    {root : Value}
    {clause : AccessBindings}
    {c d : Choices}
    {r : Except ShapeMismatch Bool}
    (hEnd : l.test.CanEnd can root clause c r d) :
    (∀ i < n, d i = c i) ∧ ∀ i, m ≤ i → d i = c i := by
  have hSame := Test.CanEnd.sameOutside l.test hEnd
  constructor
  · intro i hi
    exact hSame i fun hMem => absurd (h.noted i hMem).1 (by omega)
  · intro i hi
    exact hSame i fun hMem => absurd (h.noted i hMem).2 (by omega)

namespace AccessBindings

/-
  Under a condition on the choices, the bindings of a clause
  have the names of a part and lead where its accesses lead.
-/
def Shows
    (root : Value)
    (clause : AccessBindings)
    (Q : Choices → Prop)
    (part : AccessBindings) : Prop :=
  ∀ b ∈ part, ∃ a, clause.lookup b.1 = some a ∧
    ∀ c, Q c → a.resolve root c = b.2.resolve root c

/-
  Under a condition on the choices, and as long as those
  below `n` are kept, the bindings of a clause lead to some
  values.
-/
def Holds
    (root : Value)
    (clause : AccessBindings)
    (Q : Choices → Prop)
    (n : Nat)
    (c : Choices)
    (env : ValueBindings) : Prop :=
  ∀ b ∈ env, ∃ a, clause.lookup b.1 = some a ∧
    ∀ d, Q d → (∀ i < n, d i = c i) → a.resolve root d = .ok b.2

variable {root : Value}
variable {clause : AccessBindings}
variable {Q Q' : Choices → Prop}

theorem Shows.subset
    {part part' : AccessBindings}
    (h : Shows root clause Q part)
    (hSub : part' ⊆ part) :
    Shows root clause Q part' :=
  fun b hb => h b (hSub hb)

/- More choices may be kept, and fewer be possible. -/
theorem Holds.mono
    {n n' : Nat}
    {c c' : Choices}
    {env : ValueBindings}
    (h : Holds root clause Q n c env)
    (hLe : n ≤ n')
    (hQ : ∀ d, Q' d → Q d)
    (hSame : ∀ i < n, c' i = c i) :
    Holds root clause Q' n' c' env := by
  intro b hb
  rcases h b hb with ⟨a, hLookup, hRead⟩
  refine ⟨a, hLookup, fun d hd hBelow => ?_⟩
  refine hRead d (hQ d hd) fun i hi => ?_
  exact (hBelow i (hi.trans_le hLe)).trans (hSame i hi)

/- Reading keeps some of the names in order. -/
theorem sublist_names_readable
    (root : Value)
    (c : Choices)
    (bindings : AccessBindings) :
    ((bindings.readable root c).map Prod.fst).Sublist
      bindings.names := by
  unfold readable names
  induction bindings with
  | nil => exact .slnil
  | cons b bs ih =>
      rcases b with ⟨x, a⟩
      rcases hRead : a.resolve root c with cause | v
      · simp only [List.filterMap_cons, List.map_cons, hRead]
        exact ih.cons x
      · simp only [List.filterMap_cons, List.map_cons, hRead]
        exact ih.cons_cons x

/- A name with a readable access is among the readable. -/
theorem lookup_readable
    (hNodup : clause.names.Nodup)
    {x : String}
    {a : Access}
    {c : Choices}
    {v : Value}
    (hLookup : clause.lookup x = some a)
    (hRead : a.resolve root c = .ok v) :
    (clause.readable root c).lookup x = some v := by
  have hMem : (x, v) ∈ clause.readable root c := by
    refine List.mem_filterMap.mpr
      ⟨(x, a), mem_of_lookup_eq hLookup, ?_⟩
    simp only [hRead]
  have hSub := sublist_names_readable root c clause
  exact lookup_eq_of_mem (hNodup.sublist hSub) hMem

/-
  The names that a run has bound are seen by the host with
  the same values.
-/
theorem Holds.lookup_eq
    (hNodup : clause.names.Nodup)
    {n : Nat}
    {c : Choices}
    {env : ValueBindings}
    (h : Holds root clause Q n c env)
    (hQ : Q c)
    {x : String}
    (hx : x ∈ ValueBindings.names env) :
    (clause.readable root c).lookup x = env.lookup x := by
  rcases hFound : env.lookup x with _ | v
  · -- A bound name is found.
    rcases List.mem_map.mp hx with ⟨⟨y, v⟩, hMem, rfl⟩
    exact absurd (List.lookup_eq_none_iff.mp hFound _ hMem) (by simp)
  · rcases h (x, v) (mem_of_lookup_eq hFound) with
      ⟨a, hLookup, hRead⟩
    exact lookup_readable hNodup hLookup (hRead c hQ fun _ _ => rfl)

end AccessBindings

end MatchCompiler

------------------------------------------------------------
-- Simulation
------------------------------------------------------------

namespace MatchCompiler

namespace Plan

/-
  A result of a plan stands for an outcome of its lowered
  test: the plan faults, or both fail, or both match and the
  bindings of the clause lead to the values of the plan.
-/
inductive Reflects
    (root : Value)
    (clause : AccessBindings)
    (Q : Choices → Prop)
    (n : Nat)
    (d : Choices) : Except ShapeMismatch Bool → MatchResult → Prop
| fault
    (cause : ShapeMismatch)
    (r : Except ShapeMismatch Bool) :
    Reflects root clause Q n d r (.error cause)
| fails :
    Reflects root clause Q n d (.ok false) (.ok none)
| holds
    {env : ValueBindings}
    (hEnv : clause.Holds root Q n d env) :
    Reflects root clause Q n d (.ok true) (.ok (some env))

/-
  Every outcome of the lowered test stands for a result of
  the plan: the names bound before have their values, guards
  are asked where the names that they use are bound, and the
  condition on choices is about alternations around.
-/
def Simulated
    (can can' : GuardAnswers)
    (root : Value)
    (clause : AccessBindings)
    (G : Guard → Prop)
    (o : LoweringOptions)
    (p : Plan) : Prop :=
  ∀ ⦃n : Nat⦄ ⦃Q : Choices → Prop⦄ ⦃c d : Choices⦄
    ⦃r : Except ShapeMismatch Bool⦄ ⦃env : ValueBindings⦄,
    Choices.Late (p.lower o n).2 Q → Q c →
    clause.Shows root Q (p.lower o n).1.bindings →
    clause.Holds root Q n c env →
    p.Scoped G (ValueBindings.names env) →
    (p.lower o n).1.test.CanEnd can root clause c r d →
    ∃ r', p.Yields can' root env r' ∧
      Reflects root clause Q (p.lower o n).2 d r r'

end Plan

/-
  Answers that are possible under some bindings are possible
  under all that agree on the names that the guard uses.
-/
def GuardAnswers.Follow
    (G : Guard → Prop)
    (can can' : GuardAnswers) : Prop :=
  ∀ g, G g → ∀ bs env b,
    (∀ x ∈ g.uses, bs.lookup x = env.lookup x) →
    can g.id bs b → can' g.id env b

theorem GuardAnswers.follow_any
    (G : Guard → Prop)
    (can : GuardAnswers) :
    Follow G can .any :=
  fun _ _ _ _ _ _ _ => trivial

namespace Plan

variable {can can' : GuardAnswers}
variable {root : Value}
variable {clause : AccessBindings}
variable {G : Guard → Prop}
variable {o : LoweringOptions}

/- A leaf reads the same under all choices. -/
theorem simulated_leaf
    {t : Test}
    (hLeaf : t.IsLeaf)
    (hSteady : ∀ root c d, t.reading root c = t.reading root d) :
    Simulated can can' root clause G o (.test t) := by
  intro n Q c d r env hLate hQ hShows hHolds hScoped hEnd
  rcases (Test.canEnd_leaf hLeaf c r d).mp hEnd with ⟨rfl, rfl⟩
  rw [hSteady root d .empty]
  refine ⟨_, (yields_leaf hLeaf env _).mpr rfl, ?_⟩
  rcases t.reading root .empty with cause | b
  · exact .fault cause _
  · cases b with
    | false => exact .fails
    | true => exact .holds hHolds

/- A guard is answered from the names that it uses. -/
theorem simulated_guard
    (hNodup : clause.names.Nodup)
    (hCan : GuardAnswers.Follow G can can')
    (id : GuardId) :
    Simulated can can' root clause G o (.test (.guard id)) := by
  rintro n Q c d r env hLate hQ hShows hHolds ⟨g, hG, rfl, hUses⟩
    ⟨rfl, b, hb, rfl⟩
  have hSame :
      ∀ x ∈ g.uses,
        (clause.readable root d).lookup x = env.lookup x :=
    fun x hx => hHolds.lookup_eq hNodup hQ (hUses hx)
  refine ⟨_, ⟨b, hCan g hG _ _ b hSame hb, rfl⟩, ?_⟩
  cases b with
  | false => exact .fails
  | true => exact .holds hHolds

/- A name is bound to the value of its access. -/
theorem simulated_bind
    (x : String)
    {a : Access}
    (ha : a.Plain)
    {p : Plan}
    (h : Simulated can can' root clause G o p) :
    Simulated can can' root clause G o (.bind x a p) := by
  intro n Q c d r env hLate hQ hShows hHolds hScoped hEnd
  rcases List.forall_mem_cons.mp hShows with ⟨hName, hInner⟩
  rcases h hLate hQ hInner hHolds hScoped hEnd with
    ⟨r', hYields, hReflects⟩
  cases hReflects with
  | fault cause =>
      exact ⟨.error cause, Or.inr ⟨nofun, hYields⟩, .fault cause _⟩
  | fails => exact ⟨.ok none, Or.inr ⟨nofun, hYields⟩, .fails⟩
  | @holds env₁ hEnv =>
      refine ⟨_, Or.inl ⟨env₁, hYields, rfl⟩, ?_⟩
      rcases hRead : a.resolve root .empty with cause | v
      · exact .fault cause _
      · refine .holds (List.forall_mem_cons.mpr ⟨?_, hEnv⟩)
        rcases hName with ⟨a', hLookup, hAlike⟩
        refine ⟨a', hLookup, fun e he _ => ?_⟩
        rw [hAlike e he, ← hRead]
        exact ha.steady root e .empty

/- Several plans end no earlier than they start. -/
theorem le_lowerAll
    (o : LoweringOptions)
    {ps : List Plan}
    (h : ∀ p ∈ ps, p.Uniform)
    (n : Nat) :
    n ≤ (lowerAll o ps n).2 := by
  rcases exists_spaced (fun p hp => (h p hp).tidy o) n with
    ⟨f, hSpaced⟩
  exact hSpaced.le

/- Parts are simulated one after the other. -/
theorem simulated_inTurn
    {ps : List Plan}
    (hUniform : ∀ p ∈ ps, p.Uniform)
    (h : ∀ p ∈ ps, Simulated can can' root clause G o p)
    {n : Nat}
    {Q : Choices → Prop}
    {c d : Choices}
    {r : Except ShapeMismatch Bool}
    {env : ValueBindings}
    (hLate : Choices.Late (lowerAll o ps n).2 Q)
    (hQ : Q c)
    (hShows :
      clause.Shows root Q
        ((lowerAll o ps n).1.flatMap Lowered.bindings))
    (hHolds : clause.Holds root Q n c env)
    (hScoped : ScopedInTurn G ps (ValueBindings.names env))
    (hEnd :
      Test.CanEndWhile can root clause true
        ((lowerAll o ps n).1.map Lowered.test) c r d) :
    ∃ r', YieldsInTurn can' root ps env r' ∧
      Reflects root clause Q (lowerAll o ps n).2 d r r' := by
  induction ps generalizing n c env with
  | nil =>
      rcases hEnd with ⟨rfl, rfl⟩
      exact ⟨_, rfl, .holds hHolds⟩
  | cons p ps ih =>
      rcases List.forall_mem_cons.mp hUniform with ⟨hHead, hTail⟩
      rcases List.forall_mem_cons.mp h with ⟨hp, hps⟩
      rcases hScoped with ⟨hScope, hScopes⟩
      have hTidy := hHead.tidy o n
      have hLe := le_lowerAll o hTail (p.lower o n).2
      have hPart : clause.Shows root Q (p.lower o n).1.bindings :=
        hShows.subset (List.subset_append_left _ _)
      have hParts :
          clause.Shows root Q
            ((lowerAll o ps (p.lower o n).2).1.flatMap
              Lowered.bindings) :=
        hShows.subset (List.subset_append_right _ _)
      rcases hEnd with ⟨e, hHere, hRest⟩ | ⟨hNe, hHere⟩
      · rcases hp (hLate.mono hLe) hQ hPart hHolds hScope hHere with
          ⟨r₁, hYields, hReflects⟩
        cases hReflects with
        | fault cause =>
            exact ⟨.error cause, Or.inr ⟨nofun, hYields⟩,
              .fault cause _⟩
        | @holds env₁ hEnv =>
            have hQ' : Q e :=
              hLate c e (fun i hi =>
                ((hTidy.kept hHere).2 i (hLe.trans hi)).symm) hQ
            have hNames := (Yields.perm_names hHead hYields).symm
            have hScopes' := scopedInTurn_mono hScopes fun x hx =>
              hNames.subset (List.perm_append_comm.subset hx)
            rcases ih hTail hps hLate hQ' hParts hEnv hScopes' hRest
              with ⟨r', hYields', hReflects'⟩
            exact ⟨r', Or.inl ⟨env₁, hYields, hYields'⟩, hReflects'⟩
      · rcases hp (hLate.mono hLe) hQ hPart hHolds hScope hHere with
          ⟨r₁, hYields, hReflects⟩
        cases hReflects with
        | fault cause =>
            exact ⟨.error cause, Or.inr ⟨nofun, hYields⟩,
              .fault cause _⟩
        | fails => exact ⟨.ok none, Or.inr ⟨nofun, hYields⟩, .fails⟩
        | holds hEnv => exact absurd rfl hNe

/- Branches that agree on their accesses need no number. -/
theorem simulated_first
    {ps : List Plan}
    (hUniform : ∀ p ∈ ps, p.Uniform)
    (h : ∀ p ∈ ps, Simulated can can' root clause G o p)
    {n : Nat}
    {Q : Choices → Prop}
    {c d : Choices}
    {r : Except ShapeMismatch Bool}
    {env : ValueBindings}
    (hLate : Choices.Late (lowerAll o ps n).2 Q)
    (hQ : Q c)
    (hShows :
      ∀ l ∈ (lowerAll o ps n).1, clause.Shows root Q l.bindings)
    (hHolds : clause.Holds root Q n c env)
    (hScoped : ScopedEach G ps (ValueBindings.names env))
    (hEnd :
      Test.CanEndWhile can root clause false
        ((lowerAll o ps n).1.map Lowered.test) c r d) :
    ∃ r', YieldsFirst can' root ps env r' ∧
      Reflects root clause Q (lowerAll o ps n).2 d r r' := by
  induction ps generalizing n c with
  | nil =>
      rcases hEnd with ⟨rfl, rfl⟩
      exact ⟨_, rfl, .fails⟩
  | cons p ps ih =>
      rcases List.forall_mem_cons.mp hUniform with ⟨hHead, hTail⟩
      rcases List.forall_mem_cons.mp h with ⟨hp, hps⟩
      rcases List.forall_mem_cons.mp hShows with ⟨hPart, hParts⟩
      rcases hScoped with ⟨hScope, hScopes⟩
      have hTidy := hHead.tidy o n
      have hLe := le_lowerAll o hTail (p.lower o n).2
      rcases hEnd with ⟨e, hHere, hRest⟩ | ⟨hNe, hHere⟩
      · rcases hp (hLate.mono hLe) hQ hPart hHolds hScope hHere with
          ⟨r₁, hYields, hReflects⟩
        cases hReflects with
        | fault cause =>
            exact ⟨.error cause, Or.inr ⟨nofun, hYields⟩,
              .fault cause _⟩
        | fails =>
            have hQ' : Q e :=
              hLate c e (fun i hi =>
                ((hTidy.kept hHere).2 i (hLe.trans hi)).symm) hQ
            have hHolds' := hHolds.mono hTidy.le (fun _ hd => hd)
              (hTidy.kept hHere).1
            rcases ih hTail hps hLate hQ' hParts hHolds' hScopes hRest
              with ⟨r', hYields', hReflects'⟩
            exact ⟨r', Or.inl ⟨hYields, hYields'⟩, hReflects'⟩
      · rcases hp (hLate.mono hLe) hQ hPart hHolds hScope hHere with
          ⟨r₁, hYields, hReflects⟩
        cases hReflects with
        | fault cause =>
            exact ⟨.error cause, Or.inr ⟨nofun, hYields⟩,
              .fault cause _⟩
        | fails => exact absurd rfl hNe
        | @holds env₁ hEnv =>
            refine ⟨.ok (some env₁), Or.inr ⟨nofun, hYields⟩,
              .holds ?_⟩
            exact hEnv.mono hLe (fun _ hd => hd) fun _ _ => rfl

/-
  Noting branch `k` for an alternation that comes after some
  numbers: the bindings go on showing what is bound, and the
  note is part of the condition while the branch is tried.
-/
theorem noted_branch
    {n m id k : Nat}
    {Q : Choices → Prop}
    {c : Choices}
    {env : ValueBindings}
    (hnm : n ≤ m)
    (hId : m ≤ id)
    (hLate : Choices.Late (id + 1) Q)
    (hQ : Q c)
    (hHolds : clause.Holds root Q n c env) :
    Choices.Late m (fun c => Q c ∧ c id = some k) ∧
    (Q (c.choose id k) ∧ c.choose id k id = some k) ∧
    clause.Holds root (fun c => Q c ∧ c id = some k) n
      (c.choose id k) env := by
  refine ⟨?_, ⟨?_, Choices.choose_self c id k⟩, ?_⟩
  · rintro c₁ c₂ hSame ⟨hQ₁, hNoted⟩
    refine ⟨hLate.mono (by omega) c₁ c₂ hSame hQ₁, ?_⟩
    rw [← hSame id hId, hNoted]
  · refine hLate c _ (fun i hi => ?_) hQ
    exact (Choices.choose_of_ne c k (by omega)).symm
  · refine hHolds.mono (Nat.le_refl n) (fun _ => And.left) ?_
    exact fun i hi => Choices.choose_of_ne c k (by omega)

/- A branch that has failed leaves the bindings as they were. -/
theorem failed_branch
    {n id k : Nat}
    {Q : Choices → Prop}
    {c d : Choices}
    {r : Except ShapeMismatch Bool}
    {env : ValueBindings}
    {can : GuardAnswers}
    {l : Lowered}
    {m : Nat}
    (hTidy : l.Tidy n m)
    (hId : m ≤ id)
    (hLate : Choices.Late (id + 1) Q)
    (hQ : Q c)
    (hHolds : clause.Holds root Q n c env)
    (hEnd : l.test.CanEnd can root clause (c.choose id k) r d) :
    Q d ∧ clause.Holds root Q m d env := by
  have hLe := hTidy.le
  rcases hTidy.kept hEnd with ⟨hLow, hHigh⟩
  constructor
  · refine hLate c d (fun i hi => ?_) hQ
    rw [hHigh i (by omega), Choices.choose_of_ne c k (by omega)]
  · refine hHolds.mono hLe (fun _ hd => hd) fun i hi => ?_
    rw [hLow i hi, Choices.choose_of_ne c k (by omega)]

/-
  Branches of a numbered alternation. While branch `k` is
  tried, the choice for the alternation is `k`; this is what
  makes the bindings of the clause show its accesses, and it
  stays so when the branch has matched.
-/
theorem simulated_branches
    {ps : List Plan}
    (hUniform : ∀ p ∈ ps, p.Uniform)
    (h : ∀ p ∈ ps, Simulated can can' root clause G o p)
    {n id k : Nat}
    {Q : Choices → Prop}
    {c d : Choices}
    {r : Except ShapeMismatch Bool}
    {env : ValueBindings}
    (hId : (lowerAll o ps n).2 ≤ id)
    (hLate : Choices.Late (id + 1) Q)
    (hQ : Q c)
    (hShows :
      ∀ j l, (lowerAll o ps n).1[j]? = some l →
        clause.Shows root (fun c => Q c ∧ c id = some (k + j))
          l.bindings)
    (hHolds : clause.Holds root Q n c env)
    (hScoped : ScopedEach G ps (ValueBindings.names env))
    (hEnd :
      Test.CanEndBranches can root clause id k
        ((lowerAll o ps n).1.map Lowered.test) c r d) :
    ∃ r', YieldsFirst can' root ps env r' ∧
      Reflects root clause Q (id + 1) d r r' := by
  induction ps generalizing n c k with
  | nil =>
      rcases hEnd with ⟨rfl, rfl⟩
      exact ⟨_, rfl, .fails⟩
  | cons p ps ih =>
      rcases List.forall_mem_cons.mp hUniform with ⟨hHead, hTail⟩
      rcases List.forall_mem_cons.mp h with ⟨hp, hps⟩
      rcases hScoped with ⟨hScope, hScopes⟩
      have hTidy := hHead.tidy o n
      have hLe := le_lowerAll o hTail (p.lower o n).2
      have hLeId : (p.lower o n).2 ≤ id := hLe.trans hId
      have hPart :
          clause.Shows root (fun c => Q c ∧ c id = some k)
            (p.lower o n).1.bindings :=
        hShows 0 _ rfl
      rcases noted_branch (k := k) hTidy.le hLeId hLate hQ hHolds with
        ⟨hLate', hQ', hHolds'⟩
      rcases hEnd with ⟨e, hHere, hRest⟩ | ⟨hNe, hHere⟩
      · rcases hp hLate' hQ' hPart hHolds' hScope hHere with
          ⟨r₁, hYields, hReflects⟩
        cases hReflects with
        | fault cause =>
            exact ⟨.error cause, Or.inr ⟨nofun, hYields⟩,
              .fault cause _⟩
        | fails =>
            rcases failed_branch hTidy hLeId hLate hQ hHolds hHere with
              ⟨hQe, hHoldsE⟩
            have hParts :
                ∀ j l,
                  (lowerAll o ps (p.lower o n).2).1[j]? = some l →
                  clause.Shows root
                    (fun c => Q c ∧ c id = some (k + 1 + j))
                    l.bindings := by
              intro j l hl
              have hShow := hShows (j + 1) l hl
              rw [← Nat.add_assoc, Nat.add_right_comm] at hShow
              exact hShow
            rcases ih hTail hps hId hQe hParts hHoldsE hScopes hRest
              with ⟨r', hYields', hReflects'⟩
            exact ⟨r', Or.inl ⟨hYields, hYields'⟩, hReflects'⟩
      · rcases hp hLate' hQ' hPart hHolds' hScope hHere with
          ⟨r₁, hYields, hReflects⟩
        cases hReflects with
        | fault cause =>
            exact ⟨.error cause, Or.inr ⟨nofun, hYields⟩,
              .fault cause _⟩
        | fails => exact absurd rfl hNe
        | @holds env₁ hEnv =>
            refine ⟨.ok (some env₁), Or.inr ⟨nofun, hYields⟩,
              .holds ?_⟩
            intro b hb
            rcases hEnv b hb with ⟨a, hLookup, hRead⟩
            refine ⟨a, hLookup, fun d' hd' hKept => ?_⟩
            have hNoted : d' id = some k := by
              rw [hKept id (Nat.lt_succ_self id),
                (hTidy.kept hHere).2 id hLeId, hQ'.2]
            exact hRead d' ⟨hd', hNoted⟩ fun i hi =>
              hKept i (by omega)

/-
  Where the bindings of a clause show those of a numbered
  alternation, they show each branch while it is noted.
-/
theorem shows_branch
    {ls : List Lowered}
    (hNames : Lowered.SameNames ls)
    {l₀ : Lowered}
    (hFirst : ls[0]? = some l₀)
    {id : Nat}
    {Q : Choices → Prop}
    (hShows :
      clause.Shows root Q (l₀.bindings.map fun (x, a) =>
        if Lowered.agreeOn ls x a then (x, a)
        else (x, Lowered.choice o id ls x)))
    {j : Nat}
    {l : Lowered}
    (hl : ls[j]? = some l) :
    clause.Shows root (fun c => Q c ∧ c id = some j) l.bindings := by
  have hMem₀ := List.mem_of_getElem? hFirst
  have hMem := List.mem_of_getElem? hl
  rintro ⟨x, a⟩ hb
  have hx : x ∈ l.bindings.names := List.mem_map.mpr ⟨_, hb, rfl⟩
  rcases exists_lookup_of_mem (hNames.nodup l₀ hMem₀)
    (hNames.subset l hMem l₀ hMem₀ hx) with ⟨a₀, hb₀, -⟩
  have hJoined := hShows _ (List.mem_map.mpr ⟨(x, a₀), hb₀, rfl⟩)
  have hFound := lookup_eq_of_mem (hNames.nodup l hMem) hb
  by_cases hAgree : Lowered.agreeOn ls x a₀ = true
  · -- The branches agree on the name.
    simp only [hAgree, if_true] at hJoined
    have hb' := Lowered.lookup_of_agreeOn hNames hMem₀ hMem hb₀ hAgree
    have hFound' := lookup_eq_of_mem (hNames.nodup l hMem) hb'
    have hEq : a₀ = a := Option.some.inj (hFound'.symm.trans hFound)
    subst hEq
    rcases hJoined with ⟨a', hLookup, hRead⟩
    exact ⟨a', hLookup, fun c hc => hRead c hc.1⟩
  · -- The name leads where the noted branch leads.
    simp only [hAgree] at hJoined
    rcases hJoined with ⟨a', hLookup, hRead⟩
    refine ⟨a', hLookup, fun c hc => ?_⟩
    rw [hRead c hc.1]
    exact Lowered.resolve_choice o root hc.2 hl hFound

/-
  An alternation has no number, and then the bindings of a
  clause show those of each branch, or it has one, and then
  they show those of the branch that is noted.
-/
theorem shows_alt
    {p : Plan}
    {ps : List Plan}
    (hNodup : ∀ q ∈ p :: ps, q.names.Nodup)
    (hSame : ∀ q ∈ p :: ps, ∀ q' ∈ p :: ps, q.names ⊆ q'.names)
    {n : Nat}
    {Q : Choices → Prop}
    (hShows :
      clause.Shows root Q ((Plan.alt (p :: ps)).lower o n).1.bindings) :
    ((Plan.alt (p :: ps)).lower o n).1.test =
        .or ((lowerAll o (p :: ps) n).1.map Lowered.test) ∧
      ((Plan.alt (p :: ps)).lower o n).2 = (lowerAll o (p :: ps) n).2 ∧
      (∀ l ∈ (lowerAll o (p :: ps) n).1,
        clause.Shows root Q l.bindings) ∨
    ((Plan.alt (p :: ps)).lower o n).1.test =
        .alt (lowerAll o (p :: ps) n).2
          ((lowerAll o (p :: ps) n).1.map Lowered.test) ∧
      ((Plan.alt (p :: ps)).lower o n).2 =
        (lowerAll o (p :: ps) n).2 + 1 ∧
      ∀ j l, (lowerAll o (p :: ps) n).1[j]? = some l →
        clause.Shows root
          (fun c => Q c ∧ c (lowerAll o (p :: ps) n).2 = some j)
          l.bindings := by
  have hNames := sameNames_lowerAll o hNodup hSame n
  simp only [lower] at hShows ⊢
  rcases Lowered.join_cases o (p.lower o n).1
    (lowerAll o ps (p.lower o n).2).1
    (lowerAll o ps (p.lower o n).2).2 with
    ⟨hAgree, hJoin⟩ | ⟨-, hJoin⟩
  · rw [lowerAll, hJoin] at hShows ⊢
    refine Or.inl ⟨rfl, rfl, ?_⟩
    rintro l hl ⟨x, a⟩ hb
    have hx : x ∈ l.bindings.names :=
      List.mem_map.mpr ⟨_, hb, rfl⟩
    rcases exists_lookup_of_mem
      (hNames.nodup _ List.mem_cons_self)
      (hNames.subset l hl _ List.mem_cons_self hx) with
      ⟨a₀, hb₀, -⟩
    have hb' := Lowered.lookup_of_agreeOn hNames
      List.mem_cons_self hl hb₀ (hAgree _ hb₀)
    have hEq := Option.some.inj
      ((lookup_eq_of_mem (hNames.nodup l hl) hb').symm.trans
        (lookup_eq_of_mem (hNames.nodup l hl) hb))
    rw [← hEq]
    exact hShows _ hb₀
  · rw [lowerAll, hJoin] at hShows ⊢
    exact Or.inr ⟨rfl, rfl, fun j l hl => shows_branch hNames rfl hShows hl⟩

/- Alternations are simulated. -/
theorem simulated_alt
    {ps : List Plan}
    (hUniform : ∀ p ∈ ps, p.Uniform)
    (hNodup : ∀ p ∈ ps, p.names.Nodup)
    (hSame : ∀ p ∈ ps, ∀ q ∈ ps, p.names ⊆ q.names)
    (h : ∀ p ∈ ps, Simulated can can' root clause G o p) :
    Simulated can can' root clause G o (.alt ps) := by
  intro n Q c d r env hLate hQ hShows hHolds hScoped hEnd
  cases ps with
  | nil =>
      rcases hEnd with ⟨rfl, rfl⟩
      exact ⟨_, rfl, .fails⟩
  | cons q qs =>
      rcases shows_alt hNodup hSame hShows with
        ⟨hTest, hNext, hParts⟩ | ⟨hTest, hNext, hParts⟩
      · rw [hTest] at hEnd
        rw [hNext] at hLate ⊢
        exact simulated_first hUniform h hLate hQ hParts hHolds hScoped
          hEnd
      · rw [hTest] at hEnd
        rw [hNext] at hLate ⊢
        refine simulated_branches (k := 0) hUniform h (Nat.le_refl _)
          hLate hQ (fun j l hl => ?_) hHolds hScoped hEnd
        rw [Nat.zero_add]
        exact hParts j l hl

/- Every uniform plan is simulated. -/
theorem Uniform.simulated
    (hClause : clause.names.Nodup)
    (hCan : GuardAnswers.Follow G can can')
    {p : Plan}
    (h : p.Uniform) :
    Simulated can can' root clause G o p := by
  induction h with
  | test hLeaf hSteady => exact simulated_leaf hLeaf hSteady
  | guard id => exact simulated_guard hClause hCan id
  | bind x hAccess hInner ih => exact simulated_bind x hAccess ih
  | alt hBranches hNodup hSame ih =>
      exact simulated_alt hBranches hNodup hSame ih
  | all hParts ih =>
      intro n Q c d r env hLate hQ hShows hHolds hScoped hEnd
      exact simulated_inTurn hParts ih hLate hQ hShows hHolds hScoped
        hEnd

end Plan

end MatchCompiler

------------------------------------------------------------
-- Runs Of Clauses
------------------------------------------------------------

namespace MatchCompiler

namespace MatchResult

/-
  One result is as another says: the other is a fault, or
  none of them matches, or both do and bind the same names to
  the same values.
-/
inductive AsSaidBy : MatchResult → MatchResult → Prop
| fault
    (cause : ShapeMismatch)
    (r : MatchResult) :
    AsSaidBy r (.error cause)
| fails : AsSaidBy (.ok none) (.ok none)
| matches
    {vs env : ValueBindings}
    (hSame : vs.Perm env) :
    AsSaidBy (.ok (some vs)) (.ok (some env))

end MatchResult

namespace AccessBindings

variable {root : Value}
variable {d : Choices}

/- Bindings whose accesses lead to some values have them. -/
theorem exists_values
    {bindings : AccessBindings}
    {env : ValueBindings}
    (h :
      ∀ b ∈ bindings,
        ∃ v, b.2.resolve root d = .ok v ∧ (b.1, v) ∈ env) :
    ∃ vs, bindings.values root d = .ok vs ∧
      ValueBindings.names vs = bindings.names ∧ vs ⊆ env := by
  unfold values
  induction bindings with
  | nil => exact ⟨[], rfl, rfl, List.nil_subset env⟩
  | cons b bs ih =>
      rcases List.forall_mem_cons.mp h with ⟨⟨v, hRead, hv⟩, hTail⟩
      rcases ih hTail with ⟨vs, hValues, hNames, hSub⟩
      refine ⟨(b.1, v) :: vs, ?_, ?_, List.cons_subset.mpr ⟨hv, hSub⟩⟩
      · simp only [List.mapM_cons, hValues, hRead]
        rfl
      · exact congrArg (b.1 :: ·) hNames

/- If a run has bound all names, the clause has its values. -/
theorem Holds.exists_values
    {clause : AccessBindings}
    (hNodup : clause.names.Nodup)
    {n : Nat}
    {env : ValueBindings}
    (h : clause.Holds root (fun _ => True) n d env)
    (hNames : (ValueBindings.names env).Perm clause.names) :
    ∃ vs, clause.values root d = .ok vs ∧ vs.Perm env := by
  have hEach :
      ∀ b ∈ clause,
        ∃ v, b.2.resolve root d = .ok v ∧ (b.1, v) ∈ env := by
    rintro ⟨x, a⟩ hb
    have hx : x ∈ ValueBindings.names env :=
      hNames.symm.subset (List.mem_map.mpr ⟨_, hb, rfl⟩)
    rcases List.mem_map.mp hx with ⟨⟨y, v⟩, hv, rfl⟩
    rcases h _ hv with ⟨a', hLookup, hRead⟩
    have hFound := lookup_eq_of_mem hNodup hb
    have hEq := Option.some.inj (hLookup.symm.trans hFound)
    exact ⟨v, hEq ▸ hRead d trivial fun _ _ => rfl, hv⟩
  rcases AccessBindings.exists_values hEach with
    ⟨vs, hValues, hSame, hSub⟩
  refine ⟨vs, hValues, ?_⟩
  have hDistinct : vs.Nodup := by
    rw [← hSame] at hNodup
    exact List.Nodup.of_map Prod.fst hNodup
  have hLength : env.length ≤ vs.length := by
    have hEnv := hNames.length_eq
    rw [← hSame] at hEnv
    simpa [ValueBindings.names] using hEnv.le
  exact (List.subperm_of_subset hDistinct hSub).perm_of_length_le
    hLength

end AccessBindings

namespace CheckedArm

variable {arm : CheckedArm}
variable {p : Pattern}

/- A clause binds the names of its plan, each once. -/
theorem AcceptedFrom.names_clause
    (h : arm.AcceptedFrom p)
    (o : LoweringOptions)
    (i : Nat) :
    (arm.clause o i).bindings.names = (arm.plan o).names ∧
    (arm.clause o i).bindings.names.Nodup := by
  have hNames := Plan.lower_names o (arm.plan o) 0
  rw [lower_plan o h.regular i] at hNames
  exact ⟨hNames, hNames ▸ (h.names_plan o).1⟩

/- The test of a clause ends as a result of the plan says. -/
theorem AcceptedFrom.yields_of_canEnd
    (h : arm.AcceptedFrom p)
    {o : LoweringOptions}
    {i : Nat}
    {can can' : GuardAnswers}
    (hCan : ∀ id bs, ∃ b, can id bs b)
    (hFollow : GuardAnswers.Follow (· ∈ p.guards) can can')
    {root : Value}
    {c d : Choices}
    {b : Except ShapeMismatch Bool}
    (hEnd :
      (arm.clause o i).test.CanEnd can root
        (arm.clause o i).bindings c b d) :
    ∃ r', (arm.plan o).Yields can' root [] r' ∧
      ((∃ cause, r' = .error cause) ∨
        b = .ok false ∧ r' = .ok none ∨
        b = .ok true ∧
          ∃ vs env, r' = .ok (some env) ∧ vs.Perm env ∧
            (arm.clause o i).bindings.values root d = .ok vs) := by
  rcases h.names_clause o i with ⟨hNames, hNodup⟩
  have hUniform := h.uniform o
  have hLowered := lower_plan o h.regular i
  have hTidy := hUniform.tidy o 0
  rw [hLowered] at hTidy
  rcases (hTidy.orderly root).canEnd_of_simplify hCan o
    (Set.subset_univ _) hEnd with ⟨b₁, d₁, hEnd₁, hCase⟩
  have hShows :
      (arm.clause o i).bindings.Shows root (fun _ => True)
        (arm.clause o i).bindings := by
    rintro ⟨x, a⟩ hb
    exact ⟨a, lookup_eq_of_mem hNodup hb, fun _ _ => rfl⟩
  have hSim :
      (arm.plan o).Simulated can can' root (arm.clause o i).bindings
        (· ∈ p.guards) o :=
    hUniform.simulated hNodup hFollow
  have hRun := @hSim 0 (fun _ => True) c d₁ b₁ [] (fun _ _ _ => id)
    trivial
  rw [hLowered] at hRun
  rcases hRun hShows nofun (h.scoped o) hEnd₁ with
    ⟨r', hYields, hReflects⟩
  refine ⟨r', hYields, ?_⟩
  cases hReflects with
  | fault cause => exact Or.inl ⟨cause, rfl⟩
  | fails =>
      rcases hCase with ⟨cause, hCause⟩ | ⟨rfl, -⟩
      · cases hCause
      · exact Or.inr (Or.inl ⟨rfl, rfl⟩)
  | @holds env hEnv =>
      rcases hCase with ⟨cause, hCause⟩ | ⟨rfl, hRead⟩
      · cases hCause
      · have hBound := Plan.Yields.perm_names hUniform hYields
        rw [← hNames] at hBound
        have hAll : (ValueBindings.names env).Perm
            (arm.clause o i).bindings.names :=
          List.append_nil (arm.clause o i).bindings.names ▸ hBound
        rcases hEnv.exists_values hNodup hAll with
          ⟨vs, hValues, hPerm⟩
        rw [(hRead rfl).values_eq] at hValues
        exact Or.inr (Or.inr ⟨rfl, vs, env, rfl, hPerm, hValues⟩)

/- A clause runs as a result of the plan says. -/
theorem AcceptedFrom.yields_of_run
    (h : arm.AcceptedFrom p)
    {o : LoweringOptions}
    {i : Nat}
    {σ : Type}
    {host : GuardHost σ}
    {can can' : GuardAnswers}
    (hHost : host.Within can)
    (hFollow : GuardAnswers.Follow (· ∈ p.guards) can can')
    {root : Value}
    {s s' : σ}
    {r : MatchResult}
    (hRun : (arm.clause o i).run host root s = (r, s')) :
    ∃ r', (arm.plan o).Yields can' root [] r' ∧ r.AsSaidBy r' := by
  have hCan : ∀ id bs, ∃ b, can id bs b :=
    fun id bs => ⟨_, hHost id bs s⟩
  unfold Clause.run at hRun
  rcases hEval : (arm.clause o i).test.eval host root
    (arm.clause o i).bindings (Choices.empty, s) with ⟨b, d, s₁⟩
  rw [hEval] at hRun
  have hEnd := Test.canEnd_of_eval hHost _ hEval
  rcases h.yields_of_canEnd hCan hFollow hEnd with
    ⟨r', hYields, hFault | ⟨rfl, rfl⟩ | ⟨rfl, hMatch⟩⟩
  · rcases hFault with ⟨cause, rfl⟩
    exact ⟨_, hYields, .fault cause r⟩
  · cases hRun
    exact ⟨_, hYields, .fails⟩
  · rcases hMatch with ⟨vs, env, rfl, hPerm, hValues⟩
    simp only [hValues] at hRun
    cases hRun
    exact ⟨_, hYields, .matches hPerm⟩

end CheckedArm

end MatchCompiler
