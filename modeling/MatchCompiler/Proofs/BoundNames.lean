import MatchCompiler.Proofs.CompileVerdict
import MatchCompiler.Proofs.KeptParts
import MatchCompiler.Proofs.Preservation
import MatchCompiler.Proofs.Simulation
import MatchCompiler.Proofs.SlotDefaults

/-
  This file shows that checking, lowering and running agree on
  the names that an arm binds.

  Checking keeps one list of bindings that an alternation cuts
  back and extends again; lowering splits such a list and
  joins it by name. Whatever the nesting, both come to the
  names that stand in the checked pattern.

  Key definitions include:
    * `Checked.Binds`
    * `Checked.BranchesAgree`
    * `Checked.PlannedWithin`
    * `CheckedArm.names`

  Key theorems include:
    * `Checked.PlannedWithin.part`
    * `Checked.binds_iff`
    * `Procedure.outcome_binds_names`
-/

------------------------------------------------------------
-- Names In Checked Patterns
------------------------------------------------------------

namespace MatchCompiler

namespace Checked

/-
  A name that a checked pattern binds by itself or by a part,
  in whatever branch the part stands.
-/
inductive Binds
    (x : String) : Checked → Prop
| bind
    (span : Span)
    (inner : Checked) :
    Binds x (.bind span x inner)
| part
    {p q : Checked}
    (hPart : p.PartOf q)
    (hBinds : Binds x p) :
    Binds x q

/-
  All branches of every alternation in a checked pattern bind
  the same names.
-/
def BranchesAgree (q : Checked) : Prop :=
  ∀ span branches, q.Contains (.alt span branches) →
    ∀ b ∈ branches, ∀ b' ∈ branches,
      ∀ x, b.Binds x ↔ b'.Binds x

end Checked

end MatchCompiler

------------------------------------------------------------
-- Plans Of Parts Of A Pattern
------------------------------------------------------------

namespace MatchCompiler

namespace Plan

/- The names of a plan are among those of all plans. -/
theorem names_subset_namesOfAll
    {p : Plan}
    {ps : List Plan}
    (h : p ∈ ps) :
    p.names ⊆ namesOfAll ps := by
  intro x hx
  rw [namesOfAll_eq]
  exact List.mem_flatMap.mpr ⟨p, h, hx⟩

/- A name of several plans is one of some plan. -/
theorem exists_of_mem_namesOfAll
    {x : String}
    {ps : List Plan}
    (h : x ∈ namesOfAll ps) :
    ∃ p ∈ ps, x ∈ p.names := by
  rw [namesOfAll_eq] at h
  exact List.mem_flatMap.mp h

/- Branches that bind the same names bind those of the first. -/
theorem names_subset_alt
    {p : Plan}
    {ps : List Plan}
    (hUniform : Uniform (.alt ps))
    (h : p ∈ ps) :
    p.names ⊆ names (.alt ps) := by
  cases hUniform with
  | alt _ _ hSame =>
      cases ps with
      | nil => cases h
      | cons q qs => exact hSame p h q List.mem_cons_self

end Plan

namespace Checked

variable {α : Type}

/- The plan of a part is among those of the parts. -/
theorem mem_planParts
    {o : LoweringOptions}
    {inside : Bool}
    {tests : α → List Test}
    {access : α → Access}
    {parts : List (α × Checked)}
    {part : α × Checked}
    (h : part ∈ parts) :
    part.2.plan o inside (access part.1) ∈
      planParts o inside tests access parts :=
  List.mem_flatMap.mpr ⟨part, h, List.mem_append_right _ List.mem_cons_self⟩

/- A name of the plans of parts is one of some part's plan. -/
theorem exists_of_mem_names_planParts
    {o : LoweringOptions}
    {inside : Bool}
    {tests : α → List Test}
    {access : α → Access}
    {parts : List (α × Checked)}
    {x : String}
    (h : x ∈ Plan.namesOfAll (planParts o inside tests access parts)) :
    ∃ part ∈ parts,
      x ∈ (part.2.plan o inside (access part.1)).names := by
  induction parts with
  | nil => cases h
  | cons part parts ih =>
      rw [names_planParts_cons] at h
      rcases List.mem_append.mp h with h | h
      · exact ⟨part, List.mem_cons_self, h⟩
      · rcases ih h with ⟨part', hMem, hx⟩
        exact ⟨part', List.mem_cons_of_mem _ hMem, hx⟩

/-
  A regular pattern with a uniform plan that binds some names
  only.
-/
structure PlannedWithin
    (o : LoweringOptions)
    (names : List String)
    (q : Checked) : Prop where
  regular : q.Regular
  planned :
    ∃ inside a,
      (q.plan o inside a).Uniform ∧ (q.plan o inside a).names ⊆ names

namespace PlannedWithin

variable {o : LoweringOptions}
variable {names : List String}
variable {q : Checked}

/- One of several plans that are uniform together. -/
theorem of_mem
    {inside : Bool}
    {a : Access}
    {ps : List Plan}
    (hRegular : q.Regular)
    (hUniform : Plan.Uniform (.all ps))
    (hNames : Plan.namesOfAll ps ⊆ names)
    (hMem : q.plan o inside a ∈ ps) :
    q.PlannedWithin o names := by
  cases hUniform with
  | all hParts =>
      have hSub := Plan.names_subset_namesOfAll hMem
      exact ⟨hRegular, inside, a, hParts _ hMem,
        List.Subset.trans hSub hNames⟩

/- The parts of such a pattern are planned within its names. -/
theorem part
    {p : Checked}
    (h : q.PlannedWithin o names)
    (hPart : p.PartOf q) :
    p.PlannedWithin o names := by
  rcases h with ⟨hRegular, inside, a, hUniform, hNames⟩
  cases hPart with
  | bind span x =>
      cases hRegular with
      | bind _ _ hInner =>
          cases hUniform with
          | bind _ _ hUniform =>
              exact ⟨hInner, inside, a, hUniform,
                List.Subset.trans (List.subset_cons_self x _) hNames⟩
  | guarded span id =>
      cases hRegular with
      | guarded _ _ hInner =>
          cases inside with
          | false => exact ⟨hInner, false, a, hUniform, hNames⟩
          | true => exact of_mem hInner hUniform hNames List.mem_cons_self
  | @branch span branches hMem =>
      cases hRegular with
      | alt _ hBranches =>
          simp only [plan, planBranches_eq] at hUniform hNames
          have hBranch :
              p.plan o true a ∈ branches.map fun p => p.plan o true a :=
            List.mem_map_of_mem hMem
          have hSub := Plan.names_subset_alt hUniform hBranch
          cases hUniform with
          | alt hEach _ _ =>
              exact ⟨hBranches p hMem, true, a, hEach _ hBranch,
                List.Subset.trans hSub hNames⟩
  | @field span head fields read hMem =>
      cases hRegular with
      | object _ _ hFields =>
          simp only [plan, planFields_eq] at hUniform hNames
          exact of_mem (hFields _ hMem) hUniform hNames
            (List.mem_append_right _ (mem_planParts hMem))
  | payload span =>
      cases hRegular with
      | some _ hInner =>
          exact of_mem hInner hUniform hNames
            (List.mem_cons_of_mem _ List.mem_cons_self)
  | @place span items i hMem =>
      cases hRegular with
      | tuple _ hItems =>
          simp only [plan, planTuple_eq] at hUniform hNames
          exact of_mem (hItems _ hMem) hUniform hNames
            (mem_planParts hMem)
  | @item span layout fixedLength items spread hMem =>
      rcases hRegular.seqAccesses a with
        ⟨length, slots, slice, hAcc, hLength, -⟩
      simp only [plan, hAcc, planSlots_eq] at hUniform hNames
      -- Every item has a slot, whose access its plan reads.
      have hZip := List.map_snd_zip hLength
      rw [← hZip] at hMem
      rcases List.mem_map.mp hMem with ⟨slot, hSlot, rfl⟩
      cases hRegular with
      | seq _ hItems _ _ _ _ =>
          exact of_mem (hItems _ (List.of_mem_zip hSlot).2) hUniform hNames
            (List.mem_append_right _
              (List.mem_append_left _ (mem_planParts hSlot)))
  | spread span layout fixedLength items =>
      rcases hRegular.seqAccesses a with
        ⟨length, slots, slice, hAcc, -, hSlice⟩
      rcases Option.isSome_iff_exists.mp (hSlice rfl) with ⟨b, rfl⟩
      simp only [plan, hAcc, planSpread] at hUniform hNames
      cases hRegular with
      | seq _ _ hSpread _ _ _ =>
          exact of_mem (hSpread p rfl) hUniform hNames
            (List.mem_append_right _
              (List.mem_append_right _ List.mem_cons_self))
  | @entry span es key hMem =>
      cases hRegular with
      | map _ hEntries =>
          simp only [plan, planEntries_eq] at hUniform hNames
          exact of_mem (hEntries _ hMem) hUniform hNames
            (mem_planParts hMem)

/- Whatever such a pattern contains is planned as well. -/
theorem contains
    {p : Checked}
    (h : q.PlannedWithin o names)
    (hContains : q.Contains p) :
    p.PlannedWithin o names := by
  induction hContains with
  | refl => exact h
  | tail _ hPart ih => exact ih.part hPart

/- Such a pattern binds those names only. -/
theorem mem_of_binds
    {x : String}
    (h : q.PlannedWithin o names)
    (hBinds : q.Binds x) :
    x ∈ names := by
  induction hBinds with
  | bind span inner =>
      rcases h.planned with ⟨inside, a, -, hNames⟩
      exact hNames List.mem_cons_self
  | part hPart _ ih => exact ih (h.part hPart)

end PlannedWithin

/- A pattern binds the names of its plan. -/
theorem binds_of_mem_names_plan
    {o : LoweringOptions}
    {x : String}
    {q : Checked}
    {inside : Bool}
    {a : Access}
    (h : x ∈ (q.plan o inside a).names) :
    q.Binds x := by
  induction q using partInduction generalizing inside a with
  | wildcard s => cases h
  | literal s l => cases h
  | set s p => cases h
  | typeIs s id name => cases h
  | bind s y p ih =>
      rcases List.mem_cons.mp h with rfl | h
      · exact .bind s p
      · exact .part (.bind s y) (ih h)
  | guarded s p id ih =>
      refine .part (.guarded s id) ?_
      cases inside with
      | false => exact ih h
      | true =>
          rcases List.mem_append.mp h with h | h
          · exact ih h
          · cases h
  | some s p ih =>
      rcases List.mem_append.mp h with h | h
      · cases h
      · rcases List.mem_append.mp h with h | h
        · exact .part (.payload s) (ih h)
        · cases h
  | alt s ps ih =>
      cases ps with
      | nil => cases h
      | cons p ps =>
          exact .part (.branch s List.mem_cons_self)
            (ih p List.mem_cons_self h)
  | object s head fs ih =>
      simp only [plan, Plan.names, Plan.namesOfAll_append,
        Plan.namesOfAll_tests, planFields_eq, List.nil_append] at h
      rcases exists_of_mem_names_planParts h with ⟨⟨r, p⟩, hMem, hx⟩
      exact .part (.field s head hMem) (ih _ hMem hx)
  | tuple s items ih =>
      simp only [plan, Plan.names, planTuple_eq] at h
      rcases exists_of_mem_names_planParts h with ⟨⟨i, p⟩, hMem, hx⟩
      exact .part (.place s hMem) (ih _ hMem hx)
  | seq s l fixed items spread ihItems ihSpread =>
      simp only [plan] at h
      split at h
      · cases h
      · rename_i length slots slice hAcc
        simp only [Plan.names, Plan.namesOfAll_append,
          Plan.namesOfAll_tests, planSlots_eq, List.nil_append] at h
        rcases List.mem_append.mp h with h | h
        · rcases exists_of_mem_names_planParts h with ⟨⟨b, p⟩, hMem, hx⟩
          have hItem := (List.of_mem_zip hMem).2
          exact .part (.item s l fixed spread hItem) (ihItems p hItem hx)
        · rcases Plan.exists_of_mem_namesOfAll h with ⟨p, hp, hx⟩
          cases spread with
          | none => cases hp
          | some q =>
              rcases slice with _ | b
              · cases hp
              · cases List.mem_singleton.mp hp
                exact .part (.spread s l fixed items)
                  (ihSpread q rfl hx)
  | map s es ih =>
      simp only [plan, Plan.names, planEntries_eq] at h
      rcases exists_of_mem_names_planParts h with ⟨⟨key, p⟩, hMem, hx⟩
      exact .part (.entry s hMem) (ih _ hMem hx)

/- A regular pattern with a uniform plan binds its names. -/
theorem binds_iff
    {o : LoweringOptions}
    {q : Checked}
    {inside : Bool}
    {a : Access}
    (hRegular : q.Regular)
    (hUniform : (q.plan o inside a).Uniform)
    (x : String) :
    q.Binds x ↔ x ∈ (q.plan o inside a).names := by
  refine ⟨fun h => ?_, binds_of_mem_names_plan⟩
  have hPlanned : q.PlannedWithin o (q.plan o inside a).names :=
    ⟨hRegular, inside, a, hUniform, fun _ => id⟩
  exact hPlanned.mem_of_binds h

/-
  The branches of the alternations in a regular pattern agree
  if its plan is uniform.
-/
theorem branchesAgree_of_uniform
    {o : LoweringOptions}
    {q : Checked}
    {inside : Bool}
    {a : Access}
    (hRegular : q.Regular)
    (hUniform : (q.plan o inside a).Uniform) :
    q.BranchesAgree := by
  intro span branches hContains b hb b' hb' x
  have hPlanned : q.PlannedWithin o (q.plan o inside a).names :=
    ⟨hRegular, inside, a, hUniform, fun _ => id⟩
  rcases hPlanned.contains hContains with ⟨hAlt, inside', a', hEach, -⟩
  simp only [plan, planBranches_eq] at hEach
  cases hAlt with
  | alt _ hRegular =>
      cases hEach with
      | alt hPlans _ hSame =>
          have hMem {p : Checked} (hp : p ∈ branches) :
              p.plan o true a' ∈ branches.map fun p => p.plan o true a' :=
            List.mem_map_of_mem hp
          have hNames {p : Checked} (hp : p ∈ branches) :=
            binds_iff (hRegular p hp) (hPlans _ (hMem hp)) x
          rw [hNames hb, hNames hb']
          exact ⟨@hSame _ (hMem hb) _ (hMem hb') x,
            @hSame _ (hMem hb') _ (hMem hb) x⟩

end Checked

end MatchCompiler

------------------------------------------------------------
-- Names Of Arms
------------------------------------------------------------

namespace MatchCompiler

namespace CheckedArm

/- The names that an arm declares. -/
def names (arm : CheckedArm) : List String :=
  arm.bindings.map Binding.name

variable {arm : CheckedArm}
variable {p : Pattern}

/- An arm declares no name twice. -/
theorem AcceptedFrom.nodup_names
    (h : arm.AcceptedFrom p) :
    arm.names.Nodup := by
  rcases h.names_plan {} with ⟨hNodup, hPerm⟩
  exact hPerm.nodup_iff.mpr hNodup

/- The clause of an arm binds the names that the arm declares. -/
theorem AcceptedFrom.perm_names_clause
    (h : arm.AcceptedFrom p)
    (o : LoweringOptions)
    (i : Nat) :
    (arm.clause o i).bindings.names.Perm arm.names := by
  rw [(h.names_clause o i).1]
  exact (h.names_plan o).2.symm

/- So does its checked pattern. -/
theorem AcceptedFrom.binds_iff
    (h : arm.AcceptedFrom p)
    (x : String) :
    arm.pattern.Binds x ↔ x ∈ arm.names := by
  have hUniform := h.uniform {}
  have hPerm := (h.names_plan {}).2
  cases hUniform with
  | all hParts =>
      have hPattern := hParts _ List.mem_cons_self
      rw [Checked.binds_iff h.regular hPattern, names, hPerm.mem_iff]
      simp only [plan, Plan.names, Plan.namesOfAll,
        Plan.namesOfAll_tests, List.append_nil]

/- The branches of its alternations agree. -/
theorem AcceptedFrom.branchesAgree
    (h : arm.AcceptedFrom p) :
    arm.pattern.BranchesAgree := by
  cases h.uniform {} with
  | all hParts =>
      exact Checked.branchesAgree_of_uniform h.regular
        (hParts _ List.mem_cons_self)

end CheckedArm

end MatchCompiler

------------------------------------------------------------
-- Names Of Outcomes
------------------------------------------------------------

namespace MatchCompiler

/- Values are read for all names of some bindings. -/
theorem AccessBindings.names_of_values_eq
    {bindings : AccessBindings}
    {root : Value}
    {c : Choices}
    {env : ValueBindings}
    (h : bindings.values root c = .ok env) :
    ValueBindings.names env = bindings.names := by
  induction bindings generalizing env with
  | nil =>
      cases h
      rfl
  | cons b bs ih =>
      rcases b with ⟨x, a⟩
      unfold values at h
      rw [List.mapM_cons] at h
      rcases exists_of_bind_eq_ok h with ⟨entry, hHead, h⟩
      rcases exists_of_bind_eq_ok h with ⟨rest, hTail, hEq⟩
      rcases exists_of_bind_eq_ok hHead with ⟨v, -, hEntry⟩
      cases hEntry
      cases hEq
      exact congrArg (List.cons x) (ih hTail)

/- A name that occurs once has one value. -/
theorem ValueBindings.existsUnique_of_mem
    {env : ValueBindings}
    (hNodup : (ValueBindings.names env).Nodup)
    {x : String}
    (hx : x ∈ ValueBindings.names env) :
    ∃! v, (x, v) ∈ env := by
  rcases List.mem_map.mp hx with ⟨⟨y, v⟩, hMem, rfl⟩
  refine ⟨v, hMem, fun w hw => ?_⟩
  have hSame := List.inj_on_of_nodup_map hNodup hw hMem rfl
  exact congrArg Prod.snd hSame

/- An outcome has the names of the clause that was selected. -/
theorem Clause.names_of_runFirst
    {σ : Type}
    {host : GuardHost σ}
    {root : Value}
    {clauses : List Clause}
    {s s' : σ}
    {outcome : MatchOutcome}
    (h : runFirst host root clauses s = (.ok outcome, s')) :
    ∃ c ∈ clauses,
      c.arm = outcome.arm ∧
      ValueBindings.names outcome.bindings = c.bindings.names := by
  induction clauses generalizing s with
  | nil => cases congrArg Prod.fst h
  | cons c cs ih =>
      unfold runFirst at h
      split at h
      · cases congrArg Prod.fst h
      · rcases ih h with ⟨c', hMem, hFound⟩
        exact ⟨c', List.mem_cons_of_mem c hMem, hFound⟩
      · rename_i env s₁ hRun
        cases h
        have hFound : (c.run host root s).1 = .ok (some env) :=
          congrArg Prod.fst hRun
        rcases exists_values_of_run hFound with ⟨d, hValues⟩
        exact ⟨c, List.mem_cons_self, rfl,
          AccessBindings.names_of_values_eq hValues⟩

/-
  Checking, lowering and running agree on names. An accepted
  arm declares names that differ from one another, and they
  are the names in its checked pattern, where all branches of
  an alternation bind the same ones. Its clause binds each of
  them once, under whatever options and number. And if running
  accepted arms succeeds, then each name that the selected arm
  declares gets exactly one value, and there is nothing else.
-/
theorem Procedure.outcome_binds_names
    {arms : List CheckedArm}
    (hArms : ∀ arm ∈ arms, ∃ p, arm.AcceptedFrom p) :
    (∀ arm ∈ arms,
      arm.names.Nodup ∧
      (∀ x, arm.pattern.Binds x ↔ x ∈ arm.names) ∧
      arm.pattern.BranchesAgree ∧
      ∀ o i, (arm.clause o i).bindings.names.Perm arm.names) ∧
    ∀ (o : LoweringOptions) (scrutinee : SchemaId) (exhaustive : Bool)
      (σ : Type) (host : GuardHost σ) (root : Value) (s s' : σ)
      (outcome : MatchOutcome),
      (ofArms o arms scrutinee exhaustive).execute host root s =
        (.ok outcome, s') →
      ∃ arm, arms[outcome.arm]? = some arm ∧
        (ValueBindings.names outcome.bindings).Perm arm.names ∧
        ∀ x ∈ arm.names, ∃! v, (x, v) ∈ outcome.bindings := by
  constructor
  · intro arm hArm
    rcases hArms arm hArm with ⟨p, hFrom⟩
    exact ⟨hFrom.nodup_names, hFrom.binds_iff, hFrom.branchesAgree,
      hFrom.perm_names_clause⟩
  · intro o scrutinee exhaustive σ host root s s' outcome hRun
    rcases Clause.names_of_runFirst hRun with ⟨c, hMem, hArm, hNames⟩
    rcases List.mem_map.mp hMem with ⟨⟨arm, i⟩, hNumbered, rfl⟩
    have hGet := List.mem_zipIdx_iff_getElem?.mp hNumbered
    have hNumber : i = outcome.arm := hArm
    rw [hNumber] at hGet
    rcases hArms arm (List.mem_of_getElem? hGet) with ⟨p, hFrom⟩
    have hPerm := hFrom.perm_names_clause o i
    rw [← hNames] at hPerm
    refine ⟨arm, hGet, hPerm, fun x hx => ?_⟩
    have hNodup := hPerm.nodup_iff.mpr hFrom.nodup_names
    exact ValueBindings.existsUnique_of_mem hNodup
      (hPerm.mem_iff.mpr hx)

/-
  A pair of a pair and a number, where x stands beside 1 on
  either side and y is the number, or y stands left in the
  pair and x is the number.
-/
def crossedPattern : Pattern :=
  let one := Pattern.literal {} (.int 1 none)
  let x := Pattern.bind {} "x"
  let y := Pattern.bind {} "y"
  .alt {}
    [pairPattern (.alt {} [pairPattern x one, pairPattern one x]) y,
     pairPattern (pairPattern y (.wildcard {})) x]

/- What checking makes of it. -/
def crossedArm : CheckedArm :=
  let one := Checked.literal {} (.value (.int 1 none))
  let x := Checked.bind {} "x" (.wildcard {})
  let y := Checked.bind {} "y" (.wildcard {})
  let pair (p q : Checked) := Checked.tuple {} [(0, p), (1, q)]
  { pattern :=
      .alt {}
        [pair (.alt {} [pair x one, pair one x]) y,
         pair (pair y (.wildcard {})) x]
    bindings := [⟨"x", 0, {}⟩, ⟨"y", 0, {}⟩] }

/- The branches bind their names in different orders. -/
theorem crossedArm_binds_names :
    let procedure := Procedure.ofArms {} [crossedArm] 2 false
    let host : GuardHost Unit := fun _ _ => pure true
    let root := Value.tuple [.tuple [.int 1, .int 5], .int 7]
    let outcome : MatchOutcome := ⟨0, [("x", .int 5), ("y", .int 7)]⟩
    (∀ arm ∈ [crossedArm], ∃ p, arm.AcceptedFrom p) ∧
    procedure.execute host root () = (.ok outcome, ()) ∧
    crossedArm.pattern.BranchesAgree ∧
    ∀ x ∈ ["x", "y"], ∃! v, (x, v) ∈ outcome.bindings := by
  intro procedure host root outcome
  have hArm : crossedArm.AcceptedFrom crossedPattern :=
    ⟨pairSchemas, { table := {}, marker := 'k' }, 2, rfl⟩
  have hArms : ∀ arm ∈ [crossedArm], ∃ p, arm.AcceptedFrom p :=
    List.forall_mem_singleton.mpr ⟨crossedPattern, hArm⟩
  have hRun : procedure.execute host root () = (.ok outcome, ()) := rfl
  rcases Procedure.outcome_binds_names hArms with ⟨hNames, hOutcome⟩
  rcases hNames crossedArm List.mem_cons_self with ⟨-, -, hAgree, -⟩
  rcases hOutcome {} 2 false Unit host root () () outcome hRun with
    ⟨arm, hGet, -, hValues⟩
  cases hGet
  exact ⟨hArms, hRun, hAgree, hValues⟩

end MatchCompiler
