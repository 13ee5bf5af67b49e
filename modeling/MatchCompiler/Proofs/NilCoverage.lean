import MatchCompiler.Proofs.PlainCoverage

/-
  This file shows what an arm for nil adds to coverage.

  The labels that a match on a reference has to cover are
  those of the branches and nil, all in one list of names. An
  arm for nil takes the name of nil from the missing labels
  and no other. A branch whose label is spelled like nil goes
  with it, although the arm does not match its values.

  Key theorems include:
    * `Coverage.Walk.mem_covered_next_nil`
    * `SchemaPool.missing_append_nil`
    * `nilArm_covers_nil`
-/

------------------------------------------------------------
-- Walking Over An Arm For Nil
------------------------------------------------------------

namespace MatchCompiler

namespace Coverage.Walk

variable {s : Schema}
variable {arm : CheckedArm}
variable {place : Span}
variable {w : Walk}

/- An arm for nil does not match every value. -/
theorem catchAll_next_nil
    (hNil : arm.pattern = .literal place .nil)
    (i : Nat) :
    (next s w (arm, i)).catchAll = w.catchAll := by
  unfold next
  dsimp only
  split
  · rfl
  · rename_i hNew
    unfold redundancy? at hNew
    cases hCatchAll : w.catchAll with
    | none => rw [hNil]; rfl
    | some earlier =>
        rw [hCatchAll] at hNew
        cases hNew

/- It covers nil, or nil was covered before. -/
theorem mem_covered_next_nil
    (hNil : arm.pattern = .literal place .nil)
    (hOpen : w.catchAll = none)
    (i : Nat)
    (label : String) :
    label ∈ (next s w (arm, i)).covered ↔
      label ∈ w.covered ∨ label = "nil" := by
  unfold next redundancy?
  dsimp only
  rw [hNil, hOpen]
  dsimp only
  split
  · rename_i hRedundant
    split at hRedundant
    · rename_i hCovered
      -- The only label of the arm is covered.
      have hBefore : "nil" ∈ w.covered := by
        simpa [Checked.footprint, CheckedLiteral.coverLabels] using
          (Bool.and_eq_true_iff.mp hCovered).2
      refine ⟨.inl, fun h => h.elim id ?_⟩
      rintro rfl
      exact hBefore
    · cases hRedundant
  · exact List.mem_append.trans
      (or_congr_right List.mem_singleton)

end Coverage.Walk

namespace SchemaPool

variable {p : SchemaPool}
variable {slot : SchemaId}
variable {arms : List CheckedArm}
variable {arm : CheckedArm}
variable {place : Span}

/-
  An arm for nil behind others takes the name of nil from the
  missing labels.
-/
theorem missing_append_nil
    (hNil : arm.pattern = .literal place .nil)
    (span : Span) :
    (p.coverage slot (arms ++ [arm]) span).missing =
      (p.coverage slot arms span).missing.filter (· != "nil") := by
  unfold coverage Schema.coverage
  dsimp only
  rw [List.zipIdx_append, List.foldl_append, List.zipIdx_singleton,
    List.foldl_cons, List.foldl_nil,
    Coverage.Walk.catchAll_next_nil hNil]
  split
  · rename_i hOpen
    rw [Bool.and_eq_true, Option.isNone_iff_eq_none] at hOpen
    rw [List.filter_filter]
    refine List.filter_congr fun label _ => ?_
    rw [Bool.eq_iff_iff]
    simp only [Bool.not_eq_true', List.contains_eq_mem,
      decide_eq_false_iff_not,
      Coverage.Walk.mem_covered_next_nil hNil hOpen.1, not_or,
      Bool.and_eq_true, bne_iff_ne, ne_eq, and_comm]
  · rfl

/- Where labels are missing, a match is not exhaustive. -/
theorem missing_eq_nil_of_exhaustive
    {span : Span}
    (h : (p.coverage slot arms span).exhaustive = true) :
    (p.coverage slot arms span).missing = [] := by
  unfold coverage Schema.coverage at h ⊢
  dsimp only at h ⊢
  split
  · rename_i hOpen
    rw [if_pos hOpen] at h
    rw [Bool.and_eq_true, Option.isNone_iff_eq_none] at hOpen
    rw [hOpen.1] at h
    simpa [hOpen.2] using h
  · rfl

end SchemaPool

end MatchCompiler

------------------------------------------------------------
-- Matches On References
------------------------------------------------------------

namespace MatchCompiler

variable {ctx : CheckContext}

/- Checked at a reference, the literal nil stands for nil. -/
theorem Registry.of_checkArms_nil
    {r r' : Registry}
    {slot : SchemaId}
    {place : Span}
    {arm : CheckedArm}
    (hReference : (r.pool.get slot).isReference = true)
    (h : r.checkArms ctx slot [.literal place .nil] = (r', [.ok arm])) :
    r' = r ∧ arm.pattern = .literal place .nil := by
  unfold checkArms at h
  cases hArm : r.checkArm ctx slot (.literal place .nil) with
  | mk r₁ result =>
      rw [hArm] at h
      cases h
      have hAccepts := accepts_of_checkArm hArm
      generalize arm.bindings = bindings, arm.pattern = q at hAccepts ⊢
      have hNil : r.pool.checkLiteral ctx.marker slot .nil = .ok .nil := by
        unfold SchemaPool.checkLiteral
        exact if_pos hReference
      cases hAccepts with
      | literal hMeaning =>
          cases hNil.symm.trans hMeaning
          exact ⟨rfl, rfl⟩

/-
  An arm for nil that is appended to the arms of a match on a
  reference takes exactly the name of nil from the missing
  labels. So every uncovered branch stays uncovered, and the
  match is exhaustive only if no branch was uncovered, unless
  an uncovered branch has a label that is spelled like nil.
-/
theorem nilArm_covers_nil
    {slot : SchemaId}
    {r r' : Registry}
    {arms : List CheckedArm}
    {arm : CheckedArm}
    {place : Span}
    (hReference : (r.pool.get slot).isReference = true)
    (hArm :
      r.checkArms ctx slot [.literal place .nil] = (r', [.ok arm]))
    (span : Span) :
    let branches := (r.pool.get slot).branchLabels
    let before := r.pool.coverage slot arms span
    let after := r'.pool.coverage slot (arms ++ [arm]) span
    after.missing = before.missing.filter (· != "nil") ∧
    (("nil" ∈ branches → "nil" ∉ before.missing) ↔
      (∀ label ∈ branches, label ∈ before.missing →
        label ∈ after.missing) ∧
      (after.exhaustive = true →
        ∀ label ∈ branches, label ∉ before.missing)) := by
  intro branches before after
  rcases Registry.of_checkArms_nil hReference hArm with ⟨rfl, hNil⟩
  have hMissing : after.missing = before.missing.filter (· != "nil") :=
    SchemaPool.missing_append_nil hNil span
  have hStays :
      ∀ label, label ≠ "nil" → label ∈ before.missing →
        label ∈ after.missing := by
    intro label hNe hBefore
    rw [hMissing, List.mem_filter]
    exact ⟨hBefore, bne_iff_ne.mpr hNe⟩
  refine ⟨hMissing, fun hApart => ?_, fun hLaw hBranch hBefore => ?_⟩
  · have hKept :
        ∀ label ∈ branches, label ∈ before.missing →
          label ∈ after.missing := by
      intro label hLabel hBefore
      refine hStays label ?_ hBefore
      rintro rfl
      exact hApart hLabel hBefore
    refine ⟨hKept, fun hAll label hLabel hBefore => ?_⟩
    have hAfter := hKept label hLabel hBefore
    rw [SchemaPool.missing_eq_nil_of_exhaustive hAll] at hAfter
    cases hAfter
  · have hAfter := hLaw.1 "nil" hBranch hBefore
    rw [hMissing, List.mem_filter] at hAfter
    cases hAfter.2

/- The check of one arm that is accepted. -/
theorem Registry.exists_arm_of_checkArms
    {r : Registry}
    {slot : SchemaId}
    {p : Pattern}
    (h : (r.checkArms ctx slot [p]).2.all Except.isOk = true) :
    ∃ r' arm, r.checkArms ctx slot [p] = (r', [.ok arm]) := by
  unfold checkArms at h ⊢
  cases hArm : r.checkArm ctx slot p with
  | mk r' result =>
      rw [hArm] at h
      cases result with
      | error problems => cases h
      | ok arm => exact ⟨r', arm, rfl⟩

/- Where a leaf is covered, an arm for nil leaves pairs uncovered. -/
theorem nilArm_covers_nil_leaf :
    let ctx : CheckContext := { table := referredNode, marker := 'k' }
    let m := ctx.checkMatch 3
      [.constructor {} { typeName := some "Node", caseName := some "Leaf" }
        [] []]
    let arms := acceptedArms m.2
    ∃ r' arm, m.1.checkArms ctx 0 [.literal {} .nil] = (r', [.ok arm]) ∧
      (m.1.pool.get 0).isReference = true ∧
      (m.1.pool.coverage 0 arms {}).missing = ["nkPair", "nil"] ∧
      (r'.pool.coverage 0 (arms ++ [arm]) {}).missing = ["nkPair"] ∧
      (r'.pool.coverage 0 (arms ++ [arm]) {}).exhaustive = false := by
  intro ctx m arms
  have hReference : (m.1.pool.get 0).isReference = true := by
    decide +kernel
  have hBefore :
      (m.1.pool.coverage 0 arms {}).missing = ["nkPair", "nil"] := by
    decide +kernel
  have hBranch : "nkPair" ∈ (m.1.pool.get 0).branchLabels := by
    decide +kernel
  have hApart : "nil" ∉ (m.1.pool.get 0).branchLabels := by
    decide +kernel
  have hAccepted :
      (m.1.checkArms ctx 0 [.literal {} .nil]).2.all Except.isOk =
        true := by
    decide +kernel
  rcases Registry.exists_arm_of_checkArms hAccepted with
    ⟨r', arm, hArm⟩
  rcases @nilArm_covers_nil ctx 0 m.1 r' arms arm {} hReference hArm
    {} with ⟨hMissing, hLaw⟩
  refine ⟨r', arm, hArm, hReference, hBefore, ?_, ?_⟩
  · rw [hMissing, hBefore]
    decide
  · rw [Bool.eq_false_iff]
    intro hAll
    refine (hLaw.mp fun h => absurd h hApart).2 hAll "nkPair" hBranch ?_
    rw [hBefore]
    exact List.mem_cons_self

/- A node one of whose kinds is spelled like nil. -/
def nilKind : TypeTable :=
  { descriptors :=
      #[{ name := "Kind",
          shape := .enumeration [⟨"A", 0⟩, ⟨"nil", 1⟩] },
        { name := "Node",
          shape := .object
            { variant := some
                { discriminator := ⟨"kind", .described 0, false⟩,
                  branches :=
                    [⟨.labels ["A"], []⟩, ⟨.labels ["nil"], []⟩] } } },
        { name := "NodeRef", shape := .reference (.described 1) }] }

/-
  The branch that is spelled like nil is uncovered by an arm
  for the other branch. With an arm for nil the match is
  exhaustive, and a value of the branch fits no arm.
-/
theorem nilKind_covered :
    let ctx : CheckContext := { table := nilKind, marker := 'k' }
    let other : Pattern := .constructor {} { caseName := some "A" } [] []
    let m := ctx.checkMatch 2 [other]
    let m' := ctx.checkMatch 2 [other, .literal {} .nil]
    let v := Value.object ["Node"] [("kind", .member "nil" 1)]
    m'.2.all Except.isOk = true ∧
    HasType nilKind (.described 2) v ∧
    "nil" ∈ (m.1.pool.get 0).branchLabels ∧
    "nil" ∈ (m.1.pool.coverage 0 (acceptedArms m.2) {}).missing ∧
    (m'.1.pool.coverage 0 (acceptedArms m'.2) {}).exhaustive = true ∧
    ((Procedure.ofArms {} (acceptedArms m'.2) 0 true).execute
      (fun _ _ => (pure true : StateM Unit Bool)) v ()).1 =
        .error .noMatch := by
  have hLineage : Lineage nilKind [1] ["Node"] :=
    @Lineage.root nilKind 1 _ _ rfl rfl rfl
  refine ⟨by decide +kernel, ?_, by decide +kernel, by decide +kernel,
    by decide +kernel, by decide +kernel⟩
  have hShows :
      nilKind.Shows .reference (.described 2)
        (nilKind.typeOf (.described 1)) :=
    .view rfl
  refine .view hShows (.object_of_fields hLineage
    (List.mem_singleton_self 1) ?_)
  intro level hLevel o hShape
  cases List.mem_singleton.mp hLevel
  cases hShape
  refine List.forall_mem_singleton.mpr ⟨_, rfl, ?_⟩
  exact .enumeration (m := ⟨"nil", 1⟩) rfl (by decide)

end MatchCompiler
