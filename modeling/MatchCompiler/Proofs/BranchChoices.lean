import MatchCompiler.Proofs.Simulation

/-
  This file describes what names depend on in the bindings of
  lowered plans.

  A name that the branches of a numbered alternation bind to
  different accesses is bound to a choice, which keeps of
  every branch its number, its simplified test, its bindings
  and the access of the name. Choices have numbers of their
  part. Simplifying keeps the guards of a test, with the
  alternations around each of them, unless it drops them all.

  Key definitions include:
    * `Test.guardPlaces`
    * `AccessBindings.HasChoice`
    * `AccessBindings.GuardsSeen`
    * `Lowered.joined`

  Key theorems include:
    * `Test.guardPlaces_conjunction`
    * `Test.guardPlaces_disjunction`
    * `Lowered.hasChoice_joined`
    * `Plan.Uniform.choicesWithin`
-/

------------------------------------------------------------
-- Places Of Guards
------------------------------------------------------------

namespace MatchCompiler

namespace Test

mutual

/-
  The guards of a test, each with the numbers of the
  alternations around it.
-/
def guardPlaces : Test → List Nat → List (GuardId × List Nat)
| .and ts => guardPlacesOfAll ts
| .or ts => guardPlacesOfAll ts
| .alt i ts => fun around => guardPlacesOfAll ts (i :: around)
| .guard id => fun around => [(id, around)]
| _ => fun _ => []
termination_by structural t => t

/- Those of several tests. -/
def guardPlacesOfAll :
    List Test → List Nat → List (GuardId × List Nat)
| [] => fun _ => []
| t :: ts => fun around =>
    t.guardPlaces around ++ guardPlacesOfAll ts around
termination_by structural ts => ts

end

variable {ts us : List Test}
variable (around : List Nat)

theorem guardPlacesOfAll_eq
    (ts : List Test) :
    guardPlacesOfAll ts around =
      ts.flatMap fun t => t.guardPlaces around := by
  induction ts with
  | nil => rfl
  | cons t ts ih =>
      rw [List.flatMap_cons, ← ih]
      rfl

theorem guardPlacesOfAll_append
    (ts us : List Test) :
    guardPlacesOfAll (ts ++ us) around =
      guardPlacesOfAll ts around ++ guardPlacesOfAll us around := by
  simp only [guardPlacesOfAll_eq, List.flatMap_append]

theorem guardPlacesOfAll_conjuncts
    (h : conjuncts ts = some us) :
    guardPlacesOfAll us around = guardPlacesOfAll ts around := by
  fun_induction conjuncts ts generalizing us with
  | case1 =>
      cases h
      rfl
  | case2 ts ih => exact ih h
  | case3 => cases h
  | case4 inner ts ih =>
      rcases Option.map_eq_some_iff.mp h with ⟨rest, hRest, rfl⟩
      rw [guardPlacesOfAll_append, ih hRest]
      rfl
  | case5 t ts _ _ _ ih =>
      rcases Option.map_eq_some_iff.mp h with ⟨rest, hRest, rfl⟩
      exact congrArg (t.guardPlaces around ++ ·) (ih hRest)

/- A conjunction that is not cut off has the guards of its tests. -/
theorem guardPlaces_conjunction
    (h : conjuncts ts = some us) :
    (conjunction ts).guardPlaces around = guardPlacesOfAll ts around := by
  rw [← guardPlacesOfAll_conjuncts around h]
  unfold conjunction
  rw [h]
  match us with
  | [] => rfl
  | [t] => exact (List.append_nil _).symm
  | t :: u :: vs => rfl

theorem guardPlacesOfAll_disjuncts
    (h : disjuncts ts = some us) :
    guardPlacesOfAll us around = guardPlacesOfAll ts around := by
  fun_induction disjuncts ts generalizing us with
  | case1 =>
      cases h
      rfl
  | case2 => cases h
  | case3 ts ih => exact ih h
  | case4 inner ts ih =>
      rcases Option.map_eq_some_iff.mp h with ⟨rest, hRest, rfl⟩
      rw [guardPlacesOfAll_append, ih hRest]
      rfl
  | case5 t ts _ _ _ ih =>
      rcases Option.map_eq_some_iff.mp h with ⟨rest, hRest, rfl⟩
      exact congrArg (t.guardPlaces around ++ ·) (ih hRest)

/- Comparisons ask no guard, and so does the test for a group. -/
theorem guardPlacesOfAll_groupRun
    (o : LoweringOptions)
    {run : List Test}
    (hChain : run.IsChain (fun t u => joins t u)) :
    guardPlacesOfAll (groupRun o run) around =
      guardPlacesOfAll run around := by
  have hNone :
      ∀ ts : List Test,
        (∀ t ∈ ts, t.guardPlaces around = []) →
        guardPlacesOfAll ts around = [] := by
    intro ts hts
    rw [guardPlacesOfAll_eq]
    exact List.flatMap_eq_nil_iff.mpr hts
  unfold groupRun
  split
  · rfl
  · cases run with
    | nil => rfl
    | cons t rest =>
        cases t with
        | equals a k =>
            rcases exists_comparands hChain with ⟨ks, rfl⟩
            rw [← List.map_cons (f := Test.equals a),
              hNone ((k :: ks).map _) (List.forall_mem_map.mpr
                fun _ _ => rfl)]
            refine hNone _ (List.forall_mem_singleton.mpr ?_)
            unfold membership
            split
            · split <;> rfl
            · rfl
        | tagIs a l =>
            rcases exists_comparedLabels hChain with ⟨ls, rfl⟩
            rw [← List.map_cons (f := Test.tagIs a),
              hNone ((l :: ls).map _) (List.forall_mem_map.mpr
                fun _ _ => rfl)]
            rfl
        | _ => rfl

/- A disjunction that is not cut off has the guards of its tests. -/
theorem guardPlaces_disjunction
    (o : LoweringOptions)
    (h : disjuncts ts = some us) :
    (disjunction o ts).guardPlaces around =
      guardPlacesOfAll ts around := by
  have hGroups :
      guardPlacesOfAll (groupRuns o us) around =
        guardPlacesOfAll us around := by
    have hRuns :
        ∀ runs : List (List Test),
          (∀ run ∈ runs, run.IsChain (fun t u => joins t u)) →
          guardPlacesOfAll (runs.flatMap (groupRun o)) around =
            guardPlacesOfAll runs.flatten around := by
      intro runs hChains
      induction runs with
      | nil => rfl
      | cons run runs ih =>
          rcases List.forall_mem_cons.mp hChains with ⟨hHead, hTail⟩
          rw [List.flatMap_cons, List.flatten_cons,
            guardPlacesOfAll_append, guardPlacesOfAll_append, ih hTail,
            guardPlacesOfAll_groupRun around o hHead]
    have hSplit := hRuns (us.splitBy joins)
      fun run hRun => List.isChain_of_mem_splitBy hRun
    rw [List.flatten_splitBy] at hSplit
    exact hSplit
  rw [← guardPlacesOfAll_disjuncts around h, ← hGroups]
  unfold disjunction
  rw [h, Option.map_some]
  match groupRuns o us with
  | [] => rfl
  | [t] => exact (List.append_nil _).symm
  | t :: u :: vs => rfl

end Test

end MatchCompiler

------------------------------------------------------------
-- Choices Of Bindings
------------------------------------------------------------

namespace MatchCompiler

namespace AccessBindings

/-
  A name depends on the branch of an alternation, or one that
  such a branch binds does; with the number of the
  alternation and what its branches contribute.
-/
inductive HasChoice :
    AccessBindings → Nat → List Alternative → Prop
| here
    {bindings : AccessBindings}
    {x : String}
    {i : Nat}
    {cs : List Alternative}
    (h : (x, Access.choice i cs) ∈ bindings) :
    HasChoice bindings i cs
| inside
    {bindings : AccessBindings}
    {x : String}
    {i : Nat}
    {cs : List Alternative}
    (h : (x, Access.choice i cs) ∈ bindings)
    {c : Alternative}
    (hc : c ∈ cs)
    {j : Nat}
    {ds : List Alternative}
    (hIn : HasChoice c.bindings j ds) :
    HasChoice bindings j ds

/- The choices have numbers from `n` up to, and without, `m`. -/
def ChoicesWithin
    (n m : Nat)
    (bindings : AccessBindings) : Prop :=
  ∀ i cs, bindings.HasChoice i cs → n ≤ i ∧ i < m

/-
  A guard at some place uses only names that are bound, and
  to accesses that do not depend on the alternations around
  that place.
-/
def Sees
    (G : Guard → Prop)
    (bindings : AccessBindings)
    (place : GuardId × List Nat) : Prop :=
  ∀ g, G g → g.id = place.1 → ∀ x ∈ g.uses,
    ∃ a, bindings.lookup x = some a ∧
      ∀ i ∈ place.2, ∀ cs, a ≠ .choice i cs

/-
  In every branch of a choice but the last, the guards of its
  test see in the bindings of the branch what they use.
-/
def GuardsSeen
    (G : Guard → Prop)
    (bindings : AccessBindings) : Prop :=
  ∀ i cs, bindings.HasChoice i cs →
    ∀ c ∈ cs.dropLast, ∀ place ∈ c.test.guardPlaces [],
      c.bindings.Sees G place

variable {bindings part : AccessBindings}

theorem HasChoice.mono
    (hSub : part ⊆ bindings)
    {i : Nat}
    {cs : List Alternative}
    (h : part.HasChoice i cs) :
    bindings.HasChoice i cs := by
  cases h with
  | here h => exact .here (hSub h)
  | inside h hc hIn => exact .inside (hSub h) hc hIn

theorem GuardsSeen.subset
    {G : Guard → Prop}
    (h : bindings.GuardsSeen G)
    (hSub : part ⊆ bindings) :
    part.GuardsSeen G :=
  fun i cs hChoice => h i cs (hChoice.mono hSub)

/- A choice among several bindings is one of some binding. -/
theorem HasChoice.exists_mem
    {i : Nat}
    {cs : List Alternative}
    (h : bindings.HasChoice i cs) :
    ∃ b ∈ bindings, HasChoice [b] i cs := by
  cases h with
  | here h => exact ⟨_, h, .here List.mem_cons_self⟩
  | inside h hc hIn => exact ⟨_, h, .inside List.mem_cons_self hc hIn⟩

/- The choice of one of some bindings is theirs. -/
theorem HasChoice.of_mem
    {b : String × Access}
    (hb : b ∈ bindings)
    {i : Nat}
    {cs : List Alternative}
    (h : HasChoice [b] i cs) :
    bindings.HasChoice i cs :=
  h.mono (List.cons_subset.mpr ⟨hb, List.nil_subset _⟩)

/- What several parts bind has the choices of each part. -/
theorem hasChoice_flatMap
    {α : Type}
    {f : α → AccessBindings}
    {xs : List α}
    {i : Nat}
    {cs : List Alternative}
    (h : HasChoice (xs.flatMap f) i cs) :
    ∃ x ∈ xs, (f x).HasChoice i cs := by
  rcases h.exists_mem with ⟨b, hb, hOwn⟩
  rcases List.mem_flatMap.mp hb with ⟨x, hx, hb⟩
  exact ⟨x, hx, hOwn.of_mem hb⟩

/- The choices of bindings in two parts are those of the parts. -/
theorem hasChoice_append
    {i : Nat}
    {cs : List Alternative}
    (h : HasChoice (part ++ bindings) i cs) :
    part.HasChoice i cs ∨ bindings.HasChoice i cs := by
  rcases h.exists_mem with ⟨b, hb, hOwn⟩
  rcases List.mem_append.mp hb with hb | hb
  · exact Or.inl (hOwn.of_mem hb)
  · exact Or.inr (hOwn.of_mem hb)

theorem not_hasChoice_nil
    (i : Nat)
    (cs : List Alternative) :
    ¬ HasChoice [] i cs := by
  intro h
  rcases h.exists_mem with ⟨b, hb, -⟩
  cases hb

/- A name that is bound to a path depends on no branch. -/
theorem HasChoice.of_cons
    {x : String}
    {a : Access}
    (ha : ∀ i cs, a ≠ .choice i cs)
    {i : Nat}
    {cs : List Alternative}
    (h : HasChoice ((x, a) :: bindings) i cs) :
    bindings.HasChoice i cs := by
  cases h with
  | here h =>
      rcases List.mem_cons.mp h with hEq | h
      · cases hEq
        exact absurd rfl (ha _ _)
      · exact .here h
  | inside h hc hIn =>
      rcases List.mem_cons.mp h with hEq | h
      · cases hEq
        exact absurd rfl (ha _ _)
      · exact .inside h hc hIn

end AccessBindings

end MatchCompiler

------------------------------------------------------------
-- Choices Of Alternations
------------------------------------------------------------

namespace MatchCompiler

namespace Lowered

/- What a branch contributes to the choice for a name. -/
theorem exists_of_mem_choicesFrom
    {o : LoweringOptions}
    {x : String}
    {start : Nat}
    {ls : List Lowered}
    {c : Alternative}
    (h : c ∈ choicesFrom o x start ls) :
    ∃ l ∈ ls, c.bindings = l.bindings := by
  rcases List.mem_filterMap.mp h with ⟨⟨l, k⟩, hl, hEq⟩
  rcases Option.map_eq_some_iff.mp hEq with ⟨a, -, rfl⟩
  exact ⟨l, List.fst_mem_of_mem_zipIdx hl, rfl⟩

/- Every branch that binds a name contributes to its choice. -/
theorem mem_choicesFrom
    {o : LoweringOptions}
    {x : String}
    {start j : Nat}
    {ls : List Lowered}
    {l : Lowered}
    (hl : ls[j]? = some l)
    {a : Access}
    (hLookup : l.bindings.lookup x = some a) :
    .mk (start + j) (l.test.simplify o) l.bindings a ∈
      choicesFrom o x start ls := by
  refine List.mem_filterMap.mpr ⟨(l, start + j), ?_, ?_⟩
  · rw [List.mem_zipIdx_iff_le_and_getElem?_sub]
    exact ⟨Nat.le_add_right _ _, by simpa using hl⟩
  · simp only [hLookup, Option.map_some]

/- It does not come last if the branch does not. -/
theorem mem_dropLast_choicesFrom
    {o : LoweringOptions}
    {x : String}
    {start j : Nat}
    {ls : List Lowered}
    (hBind : ∀ l ∈ ls, ∃ a, l.bindings.lookup x = some a)
    {l : Lowered}
    (hl : ls[j]? = some l)
    (hNext : j + 1 < ls.length)
    {a : Access}
    (hLookup : l.bindings.lookup x = some a) :
    .mk (start + j) (l.test.simplify o) l.bindings a ∈
      (choicesFrom o x start ls).dropLast := by
  induction ls generalizing start j with
  | nil => cases hl
  | cons l₀ ls ih =>
      rcases List.forall_mem_cons.mp hBind with ⟨⟨a₀, ha₀⟩, hTail⟩
      cases ls with
      | nil => exact absurd hNext (by simp)
      | cons l₁ ls =>
          have hMore : choicesFrom o x (start + 1) (l₁ :: ls) ≠ [] := by
            rcases hTail l₁ List.mem_cons_self with ⟨a₁, ha₁⟩
            rw [choicesFrom_cons, ha₁]
            exact List.cons_ne_nil _ _
          rw [choicesFrom_cons, ha₀, List.dropLast_cons_of_ne_nil hMore]
          cases j with
          | zero =>
              cases hl
              cases ha₀.symm.trans hLookup
              exact List.mem_cons_self
          | succ j =>
              rw [← Nat.add_assoc, Nat.add_right_comm]
              exact List.mem_cons_of_mem _
                (ih hTail hl (Nat.lt_of_succ_lt_succ hNext))

/- The names of a numbered alternation, with their accesses. -/
def joined
    (o : LoweringOptions)
    (id : Nat)
    (ls : List Lowered)
    (bound : AccessBindings) : AccessBindings :=
  bound.map fun (x, a) =>
    if agreeOn ls x a then (x, a) else (x, choice o id ls x)

variable {o : LoweringOptions}
variable {id : Nat}
variable {ls : List Lowered}
variable {l₀ : Lowered}

/-
  Where branches agree on all names, each binds what the
  first one does.
-/
theorem same_of_agree
    (hNames : SameNames ls)
    (h₀ : l₀ ∈ ls)
    (hAgree : ∀ b ∈ l₀.bindings, agreeOn ls b.1 b.2 = true)
    {l : Lowered}
    (hl : l ∈ ls) :
    l₀.bindings ⊆ l.bindings ∧ l.bindings ⊆ l₀.bindings := by
  have hSub : l₀.bindings ⊆ l.bindings :=
    fun b hb => lookup_of_agreeOn hNames h₀ hl hb (hAgree b hb)
  refine ⟨hSub, ?_⟩
  rintro ⟨x, a⟩ hb
  have hx : x ∈ l.bindings.names := List.mem_map.mpr ⟨_, hb, rfl⟩
  rcases exists_lookup_of_mem (hNames.nodup l₀ h₀)
    (hNames.subset l hl l₀ h₀ hx) with ⟨a₀, hb₀, -⟩
  have hFound := lookup_eq_of_mem (hNames.nodup l hl) hb
  have hFound₀ := lookup_eq_of_mem (hNames.nodup l hl) (hSub hb₀)
  cases hFound.symm.trans hFound₀
  exact hb₀

/- Every branch binds each name of the first one. -/
theorem exists_lookup_of_sameNames
    (hNames : SameNames ls)
    (h₀ : l₀ ∈ ls)
    {x : String}
    (hx : x ∈ l₀.bindings.names) :
    ∀ l ∈ ls, ∃ a, l.bindings.lookup x = some a := by
  intro l hl
  rcases exists_lookup_of_mem (hNames.nodup l hl)
    (hNames.subset l₀ h₀ l hl hx) with ⟨a, -, hLookup⟩
  exact ⟨a, hLookup⟩

/-
  A name of a branch leads in the alternation where it leads
  in the branch, or depends on the alternation.
-/
theorem mem_joined
    (hNames : SameNames ls)
    (h₀ : l₀ ∈ ls)
    {l : Lowered}
    (hl : l ∈ ls)
    {b : String × Access}
    (hb : b ∈ l.bindings) :
    b ∈ joined o id ls l₀.bindings ∨
      (b.1, choice o id ls b.1) ∈ joined o id ls l₀.bindings := by
  have hx : b.1 ∈ l.bindings.names := List.mem_map.mpr ⟨_, hb, rfl⟩
  rcases exists_lookup_of_mem (hNames.nodup l₀ h₀)
    (hNames.subset l hl l₀ h₀ hx) with ⟨a₀, hb₀, -⟩
  by_cases hAgree : agreeOn ls b.1 a₀ = true
  · have hOwn := lookup_of_agreeOn hNames h₀ hl hb₀ hAgree
    have hFound := lookup_eq_of_mem (hNames.nodup l hl) hOwn
    cases hFound.symm.trans (lookup_eq_of_mem (hNames.nodup l hl) hb)
    refine Or.inl (List.mem_map.mpr ⟨_, hb₀, ?_⟩)
    simp only [hAgree, if_true]
  · refine Or.inr (List.mem_map.mpr ⟨_, hb₀, ?_⟩)
    simp only [hAgree]
    rfl

/- The names of an alternation are the names of each branch. -/
theorem cases_of_mem_joined
    (hNames : SameNames ls)
    (h₀ : l₀ ∈ ls)
    {b : String × Access}
    (hb : b ∈ joined o id ls l₀.bindings) :
    b.1 ∈ l₀.bindings.names ∧
      ((∀ l ∈ ls, b ∈ l.bindings) ∨ b.2 = choice o id ls b.1) := by
  rcases List.mem_map.mp hb with ⟨⟨x, a⟩, hMem, rfl⟩
  have hx : x ∈ l₀.bindings.names := List.mem_map.mpr ⟨_, hMem, rfl⟩
  by_cases hAgree : agreeOn ls x a = true
  · simp only [hAgree, if_true]
    exact ⟨hx, Or.inl fun l hl =>
      lookup_of_agreeOn hNames h₀ hl hMem hAgree⟩
  · simp only [hAgree]
    exact ⟨hx, Or.inr rfl⟩

/-
  The choices of a numbered alternation are its own ones and
  those of its branches.
-/
theorem hasChoice_joined
    (hNames : SameNames ls)
    (h₀ : l₀ ∈ ls)
    {i : Nat}
    {cs : List Alternative}
    (h : (joined o id ls l₀.bindings).HasChoice i cs) :
    (i = id ∧ ∃ x ∈ l₀.bindings.names, cs = choicesFrom o x 0 ls) ∨
      ∃ l ∈ ls, l.bindings.HasChoice i cs := by
  cases h with
  | here h =>
      rcases cases_of_mem_joined hNames h₀ h with ⟨hx, hAll | hEq⟩
      · exact Or.inr ⟨l₀, h₀, .here (hAll l₀ h₀)⟩
      · rw [choice_eq, Access.choice.injEq] at hEq
        exact Or.inl ⟨hEq.1, _, hx, hEq.2⟩
  | inside h hc hIn =>
      refine Or.inr ?_
      rcases cases_of_mem_joined hNames h₀ h with ⟨hx, hAll | hEq⟩
      · exact ⟨l₀, h₀, .inside (hAll l₀ h₀) hc hIn⟩
      · rw [choice_eq, Access.choice.injEq] at hEq
        rw [hEq.2] at hc
        rcases exists_of_mem_choicesFrom hc with ⟨l, hl, hSame⟩
        rw [hSame] at hIn
        exact ⟨l, hl, hIn⟩

/- Where branches differ, the choices of a branch are found. -/
theorem hasChoice_of_branch
    (hNames : SameNames ls)
    (h₀ : l₀ ∈ ls)
    {l : Lowered}
    (hl : l ∈ ls)
    {i : Nat}
    {cs : List Alternative}
    (h : l.bindings.HasChoice i cs) :
    (joined o id ls l₀.bindings).HasChoice i cs := by
  have hOf :
      ∀ b ∈ l.bindings,
        (joined o id ls l₀.bindings).HasChoice i cs ∨
          b ∈ joined o id ls l₀.bindings := by
    rintro ⟨x, a⟩ hb
    rcases mem_joined hNames h₀ hl hb with hOwn | hChoice
    · exact Or.inr hOwn
    · rcases List.getElem?_of_mem hl with ⟨j, hj⟩
      have hFound := lookup_eq_of_mem (hNames.nodup l hl) hb
      exact Or.inl (.inside hChoice (mem_choicesFrom hj hFound) h)
  rcases h.exists_mem with ⟨b, hb, hOwn⟩
  rcases hOf b hb with hDone | hMem
  · exact hDone
  · exact hOwn.of_mem hMem

end Lowered

end MatchCompiler

------------------------------------------------------------
-- Numbers Of Choices
------------------------------------------------------------

namespace MatchCompiler

namespace Plan

variable {o : LoweringOptions}

/- The choices of several plans have numbers of these. -/
theorem choicesWithin_lowerAll
    {ps : List Plan}
    (hUniform : ∀ p ∈ ps, p.Uniform)
    (h :
      ∀ p ∈ ps, ∀ n,
        (p.lower o n).1.bindings.ChoicesWithin n (p.lower o n).2)
    (n : Nat) :
    ∀ l ∈ (lowerAll o ps n).1,
      l.bindings.ChoicesWithin n (lowerAll o ps n).2 := by
  induction ps generalizing n with
  | nil => exact nofun
  | cons p ps ih =>
      rcases List.forall_mem_cons.mp hUniform with ⟨hHead, hTail⟩
      rcases List.forall_mem_cons.mp h with ⟨hp, hps⟩
      have hLe := (hHead.tidy o n).le
      have hLe' := le_lowerAll o hTail (p.lower o n).2
      refine List.forall_mem_cons.mpr ⟨fun i cs hOwn => ?_, ?_⟩
      · have hRange := hp n i cs hOwn
        exact ⟨hRange.1, hRange.2.trans_le hLe'⟩
      · intro l hl i cs hRest
        have hRange := ih hTail hps (p.lower o n).2 l hl i cs hRest
        exact ⟨hLe.trans hRange.1, hRange.2⟩

/- Those of an alternation are its own and its branches'. -/
theorem choicesWithin_alt
    {ps : List Plan}
    (hUniform : ∀ p ∈ ps, p.Uniform)
    (hNodup : ∀ p ∈ ps, p.names.Nodup)
    (hSame : ∀ p ∈ ps, ∀ q ∈ ps, p.names ⊆ q.names)
    (h :
      ∀ p ∈ ps, ∀ n,
        (p.lower o n).1.bindings.ChoicesWithin n (p.lower o n).2)
    (n : Nat) :
    ((Plan.alt ps).lower o n).1.bindings.ChoicesWithin n
      ((Plan.alt ps).lower o n).2 := by
  intro i cs hChoice
  cases ps with
  | nil => exact absurd hChoice (AccessBindings.not_hasChoice_nil i cs)
  | cons p ps =>
      have hRange := choicesWithin_lowerAll hUniform h n
      have hLe := le_lowerAll o hUniform n
      have hNames := sameNames_lowerAll o hNodup hSame n
      rw [lowerAll] at hRange hNames
      simp only [lower] at hChoice ⊢
      rcases Lowered.join_cases o (p.lower o n).1
        (lowerAll o ps (p.lower o n).2).1
        (lowerAll o ps (p.lower o n).2).2 with
        ⟨-, hJoin⟩ | ⟨-, hJoin⟩
      · rw [lowerAll, hJoin] at hChoice ⊢
        exact hRange _ List.mem_cons_self i cs hChoice
      · rw [lowerAll, hJoin] at hChoice ⊢
        rcases Lowered.hasChoice_joined hNames List.mem_cons_self
          hChoice with ⟨rfl, -⟩ | ⟨l, hl, hOwn⟩
        · exact ⟨hLe, Nat.lt_succ_self _⟩
        · have hIn := hRange l hl i cs hOwn
          exact ⟨hIn.1, Nat.lt_succ_of_lt hIn.2⟩

/- The choices of a uniform plan have numbers of the plan. -/
theorem Uniform.choicesWithin
    (o : LoweringOptions)
    {p : Plan}
    (h : p.Uniform)
    (n : Nat) :
    (p.lower o n).1.bindings.ChoicesWithin n (p.lower o n).2 := by
  induction h generalizing n with
  | test _ _ =>
      intro i cs hChoice
      exact absurd hChoice (AccessBindings.not_hasChoice_nil i cs)
  | guard id =>
      intro i cs hChoice
      exact absurd hChoice (AccessBindings.not_hasChoice_nil i cs)
  | bind x hAccess _ ih =>
      intro i cs hChoice
      exact ih n i cs (hChoice.of_cons hAccess.isPath)
  | alt hBranches hNodup hSame ih =>
      exact choicesWithin_alt hBranches hNodup hSame
        (fun p hp n => ih p hp n) n
  | all hParts ih =>
      intro i cs hChoice
      rcases AccessBindings.hasChoice_flatMap hChoice with
        ⟨l, hl, hOwn⟩
      exact choicesWithin_lowerAll hParts (fun p hp n => ih p hp n) n l
        hl i cs hOwn

end Plan

end MatchCompiler
