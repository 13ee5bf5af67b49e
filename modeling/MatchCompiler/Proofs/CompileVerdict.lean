import MatchCompiler.Proofs.SlotBounds
import MatchCompiler.Session

/-
  This file shows that compiling a match fails exactly if one
  of its stages does.

  The verdict is taken from the number of errors that a queue
  has accepted. The queue refuses errors beyond its limit and
  repetitions, but never the first error: a limit is reached
  by errors only, and what is repeated has the same code and
  so is an error as well. So no setting of the queue hides
  that an arm was rejected or that a label is missing.

  An extraction that does not end within the nesting that a
  session allows is given the unknown type. A run that stops
  there instead comes to the same verdict or to none.

  Key definitions include:
    * `Diagnostic.RatedByCode`
    * `DiagnosticQueue.Records`
    * `Registry.afterArms`
    * `Registry.Rejects`
    * `IsErrorReport`
    * `Session.compile?`
    * `Session.StageFails`
    * `Session.IsCompiled`

  Key theorems include:
    * `Problem.isValidationError`
    * `CoverageFinding.ratedByCode`
    * `DiagnosticQueue.Records.extend`
    * `DiagnosticQueue.Records.hasErrors_iff`
    * `Registry.getElem?_checkArms`
    * `Session.compile?_yields`
    * `Session.compile_verdict`
-/

------------------------------------------------------------
-- Codes And Severities
------------------------------------------------------------

namespace MatchCompiler

/-
  The code of a diagnostic says how serious it is: all but
  unreachable arms are errors.
-/
def Diagnostic.RatedByCode (d : Diagnostic) : Prop :=
  d.isError = (d.code != .unreachableArm)

/- An error with a code for the checking of patterns. -/
structure Diagnostic.IsValidationError (d : Diagnostic) : Prop where
  isError : d.isError = true
  code : d.code.isValidation = true

namespace Diagnostic.IsValidationError

variable {d : Diagnostic}

theorem ratedByCode
    (h : d.IsValidationError) :
    d.RatedByCode := by
  rw [RatedByCode, h.isError, eq_comm, bne_iff_ne]
  intro hCode
  cases hCode ▸ h.code

theorem withSimilarNames
    (h : d.IsValidationError)
    (names : List String) :
    (d.withSimilarNames names).IsValidationError := by
  unfold Diagnostic.withSimilarNames
  split
  · exact h
  · exact ⟨h.isError, h.code⟩

end Diagnostic.IsValidationError

/- What is wrong with a literal is an error. -/
theorem LiteralProblem.isValidationError
    (p : LiteralProblem) :
    p.diagnostic.IsValidationError := by
  cases p with
  | mismatch | payloadOnly | outOfRange | ambiguousMember =>
      exact ⟨rfl, rfl⟩
  | unknownMember => exact .withSimilarNames ⟨rfl, rfl⟩ _

theorem Problem.isValidationError_alternativeNames
    (span : Span)
    (missing extra : List String) :
    (alternativeNamesDiagnostic span missing extra).IsValidationError := by
  unfold alternativeNamesDiagnostic
  dsimp only
  split <;> split <;> exact ⟨rfl, rfl⟩

/- What is wrong with a pattern is an error. -/
theorem Problem.isValidationError
    (p : Problem) :
    p.diagnostic.IsValidationError := by
  cases p with
  | literal _ _ cause | mapKey _ _ cause | setMember _ _ cause =>
      exact ⟨cause.isValidationError.isError, cause.isValidationError.code⟩
  | alternativeNames span missing extra =>
      exact isValidationError_alternativeNames span missing extra
  | unboundInGuard | notOptionalCase | differentType | unknownCase |
    unknownField =>
      exact .withSimilarNames ⟨rfl, rfl⟩ _
  | _ => exact ⟨rfl, rfl⟩

namespace CoverageFinding

/- Only missing labels are an error. -/
def isMissing : CoverageFinding → Bool
| .missing _ _ _ _ => true
| _ => false

/- Context does not change what is reported. -/
theorem foldl_withContext
    (spans : List Span)
    (message : String)
    (d : Diagnostic) :
    (spans.foldl (fun d span => d.withContext span message) d).isError =
        d.isError ∧
    (spans.foldl (fun d span => d.withContext span message) d).code =
        d.code := by
  induction spans generalizing d with
  | nil => exact ⟨rfl, rfl⟩
  | cons span spans ih => exact ih (d.withContext span message)

theorem isError_diagnostic
    (f : CoverageFinding) :
    f.diagnostic.isError = f.isMissing := by
  cases f with
  | missing span type labels guarded => exact (foldl_withContext ..).1
  | afterCatchAll => rfl
  | alreadyCovered => rfl

theorem code_diagnostic
    (f : CoverageFinding) :
    f.diagnostic.code =
      if f.isMissing then .missingCases else .unreachableArm := by
  cases f with
  | missing span type labels guarded => exact (foldl_withContext ..).2
  | afterCatchAll => rfl
  | alreadyCovered => rfl

/- What coverage finds is rated by its code. -/
theorem ratedByCode
    (f : CoverageFinding) :
    f.diagnostic.RatedByCode := by
  rw [Diagnostic.RatedByCode, isError_diagnostic, code_diagnostic]
  cases f.isMissing <;> rfl

end CoverageFinding

end MatchCompiler

------------------------------------------------------------
-- What A Queue Records
------------------------------------------------------------

namespace MatchCompiler

namespace DiagnosticQueue

/-
  A queue to which diagnostics were reported holds some of
  them and counts the errors among these. An error that was
  refused repeats one that is held, or the queue holds an
  error already.
-/
structure Records
    (q : DiagnosticQueue)
    (ds : List Diagnostic) : Prop where
  held : q.held ⊆ ds
  count : q.errorCount = q.held.countP Diagnostic.isError
  seen : ∀ key ∈ q.seen, ∃ d ∈ q.held, d.key = key
  refused :
    ∀ d ∈ ds, d.isError = true →
      0 < q.errorCount ∨ ∃ e ∈ q.held, e.key = d.key

theorem records_nil
    (config : QueueConfig) :
    Records { config } [] where
  held := List.Subset.refl []
  count := rfl
  seen := nofun
  refused := nofun

variable {q : DiagnosticQueue}
variable {ds : List Diagnostic}

theorem isSome_hasErrors :
    q.hasErrors.isSome = true ↔ 0 < q.errorCount := by
  unfold hasErrors ErrorReported.ofCount
  split
  · exact iff_of_true rfl (by assumption)
  · exact iff_of_false nofun (by assumption)

/- Reporting one more diagnostic. -/
theorem Records.add
    (h : q.Records ds)
    (d : Diagnostic) :
    (q.add d).1.Records (ds ++ [d]) := by
  cases hRefuses : q.refuses d with
  | true =>
      rw [add_of_refuses hRefuses]
      refine ⟨List.subset_append_of_subset_left _ h.held, h.count, h.seen,
        fun e he hError => ?_⟩
      rcases List.mem_append.mp he with he | he
      · exact h.refused e he hError
      · cases List.mem_singleton.mp he
        rcases (Bool.or_eq_true _ _).mp hRefuses with hLimit | hRepeats
        · -- The limit is reached by errors that are held.
          simp only [limitReached, Bool.and_eq_true, decide_eq_true_eq]
            at hLimit
          rcases hLimit with ⟨-, hPositive, hCount⟩
          exact .inl (Nat.lt_of_lt_of_le hPositive hCount)
        · rw [Bool.and_eq_true, List.contains_iff_mem] at hRepeats
          exact .inr (h.seen _ hRepeats.2)
  | false =>
      rw [add_of_not_refuses hRefuses]
      have hKept : ∀ e ∈ q.held, e ∈ (q.accept d).held :=
        fun e he => List.mem_append_left _ he
      have hLast : d ∈ (q.accept d).held :=
        List.mem_append_right _ (List.mem_singleton_self d)
      constructor
      · exact List.append_subset.mpr
          ⟨List.subset_append_of_subset_left _ h.held,
            List.subset_append_right _ _⟩
      · simp only [accept, List.countP_append, List.countP_singleton,
          ← h.count]
        split <;> rfl
      · intro key hKey
        have hSeen : key = d.key ∨ key ∈ q.seen := by
          simp only [accept] at hKey
          split at hKey
          · exact List.mem_cons.mp hKey
          · exact .inr hKey
        rcases hSeen with rfl | hSeen
        · exact ⟨d, hLast, rfl⟩
        · rcases h.seen key hSeen with ⟨e, he, hSame⟩
          exact ⟨e, hKept e he, hSame⟩
      · intro e he hError
        rcases List.mem_append.mp he with he | he
        · refine (h.refused e he hError).imp (fun hSome => ?_) ?_
          · simp only [accept]
            split <;> omega
          · rintro ⟨e', he', hSame⟩
            exact ⟨e', hKept e' he', hSame⟩
        · cases List.mem_singleton.mp he
          exact .inr ⟨d, hLast, rfl⟩

/- Reporting several diagnostics in order. -/
theorem Records.extend
    (h : q.Records ds)
    (es : List Diagnostic) :
    (q.extend es).Records (ds ++ es) := by
  induction es generalizing q ds with
  | nil =>
      rw [List.append_nil]
      exact h
  | cons e es ih =>
      have hRest := ih (h.add e)
      rw [List.append_assoc] at hRest
      exact hRest

/-
  If codes say what is an error, the queue counts errors as
  soon as one was reported.
-/
theorem Records.hasErrors_iff
    (h : q.Records ds)
    (hRated : ∀ d ∈ ds, d.RatedByCode) :
    q.hasErrors.isSome = true ↔ ∃ d ∈ ds, d.isError = true := by
  rw [isSome_hasErrors, h.count, List.countP_pos_iff]
  constructor
  · rintro ⟨d, hd, hError⟩
    exact ⟨d, h.held hd, hError⟩
  · rintro ⟨d, hd, hError⟩
    rcases h.refused d hd hError with hCount | ⟨e, he, hKey⟩
    · rwa [h.count, List.countP_pos_iff] at hCount
    · -- A diagnostic with the same key has the same code.
      refine ⟨e, he, ?_⟩
      have hCode : e.code = d.code := congrArg DiagnosticKey.code hKey
      rw [hRated e (h.held he), hCode, ← hRated d hd]
      exact hError

end DiagnosticQueue

/- A report that is not empty, has an error, and is sorted. -/
structure IsErrorReport (ds : List Diagnostic) : Prop where
  nonempty : ds ≠ []
  error : ∃ d ∈ ds, d.isError = true
  sorted : (ds.map DiagnosticQueue.position).Pairwise (· ≤ ·)

/- Flushing sorts by position. -/
theorem DiagnosticQueue.sorted_flush
    (q : DiagnosticQueue) :
    (q.flush.2.map position).Pairwise (· ≤ ·) := by
  rw [List.pairwise_map]
  refine (List.pairwise_mergeSort ?_ ?_ q.held).imp
    fun h => of_decide_eq_true h
  · intro a b c hab hbc
    simp only [decide_eq_true_eq] at hab hbc ⊢
    exact Nat.le_trans hab hbc
  · intro a b
    simp only [Bool.or_eq_true, decide_eq_true_eq]
    exact Nat.le_total _ _

/- A queue that counts errors hands out a report with one. -/
theorem DiagnosticQueue.Records.isErrorReport
    {q : DiagnosticQueue}
    {ds : List Diagnostic}
    (h : q.Records ds)
    (hErrors : q.hasErrors.isSome = true) :
    IsErrorReport q.flush.2 := by
  rw [isSome_hasErrors, h.count, List.countP_pos_iff] at hErrors
  rcases hErrors with ⟨d, hd, hError⟩
  have hMem : d ∈ q.flush.2 := q.flush_perm.mem_iff.mpr hd
  exact ⟨List.ne_nil_of_mem hMem, ⟨d, hMem, hError⟩, q.sorted_flush⟩

/- One that counts none hands out no error. -/
theorem DiagnosticQueue.Records.isError_eq_false
    {q : DiagnosticQueue}
    {ds : List Diagnostic}
    (h : q.Records ds)
    (hErrors : q.hasErrors.isSome = false)
    {d : Diagnostic}
    (hd : d ∈ q.flush.2) :
    d.isError = false := by
  rw [Bool.eq_false_iff, ne_eq, isSome_hasErrors, h.count,
    List.countP_pos_iff] at hErrors
  refine Bool.eq_false_iff.mpr fun hError => hErrors ⟨d, ?_, hError⟩
  exact q.flush_perm.mem_iff.mp hd

end MatchCompiler

------------------------------------------------------------
-- Arms In Order
------------------------------------------------------------

namespace MatchCompiler

/- Results without a problem are those of the accepted arms. -/
theorem eq_map_acceptedArms
    {results : List (Except (List Problem) CheckedArm)}
    (h : results.all Except.isOk = true) :
    results = (acceptedArms results).map .ok := by
  induction results with
  | nil => rfl
  | cons result results ih =>
      simp only [List.all_cons, Bool.and_eq_true] at h
      cases result with
      | error problems => cases h.1
      | ok arm => exact congrArg (Except.ok arm :: ·) (ih h.2)

namespace Registry

/- The registry after some arms were checked in order. -/
def afterArms
    (r : Registry)
    (ctx : CheckContext)
    (slot : SchemaId)
    (ps : List Pattern) : Registry :=
  ps.foldl (fun r p => (r.checkArm ctx slot p).1) r

/- The verdict on an arm in front of which others are checked. -/
def armVerdict
    (r : Registry)
    (ctx : CheckContext)
    (slot : SchemaId)
    (before : List Pattern)
    (p : Pattern) : Except (List Problem) CheckedArm :=
  ((r.afterArms ctx slot before).checkArm ctx slot p).2

/- Some arm is rejected when it is its turn. -/
def Rejects
    (r : Registry)
    (ctx : CheckContext)
    (slot : SchemaId)
    (ps : List Pattern) : Prop :=
  ∃ before p after problems, ps = before ++ p :: after ∧
    r.armVerdict ctx slot before p = .error problems

variable {r : Registry}
variable {ctx : CheckContext}
variable {slot : SchemaId}
variable {ps : List Pattern}

/- The results stand beside the arms. -/
theorem getElem?_checkArms
    (i : Nat) :
    (r.checkArms ctx slot ps).2[i]? =
      ps[i]?.map (r.armVerdict ctx slot (ps.take i)) := by
  induction ps generalizing r i with
  | nil => rfl
  | cons p ps ih =>
      cases i with
      | zero => rfl
      | succ i => exact ih i

theorem length_checkArms :
    (r.checkArms ctx slot ps).2.length = ps.length := by
  induction ps generalizing r with
  | nil => rfl
  | cons p ps ih => exact congrArg (· + 1) ih

/- An arm is rejected with at least one problem. -/
theorem ne_nil_of_armVerdict
    {before : List Pattern}
    {p : Pattern}
    {problems : List Problem}
    (h : r.armVerdict ctx slot before p = .error problems) :
    problems ≠ [] := by
  unfold armVerdict checkArm at h
  split at h
  rename_i pattern s hRun
  split at h
  · cases h
  · rename_i hProblems
    cases h
    rwa [List.isEmpty_iff] at hProblems

/- A result of the list is the verdict on the arm beside it. -/
theorem exists_of_mem_checkArms
    {result : Except (List Problem) CheckedArm}
    (h : result ∈ (r.checkArms ctx slot ps).2) :
    ∃ before p after, ps = before ++ p :: after ∧
      r.armVerdict ctx slot before p = result := by
  rcases List.mem_iff_getElem?.mp h with ⟨i, hi⟩
  rw [getElem?_checkArms] at hi
  rcases Option.map_eq_some_iff.mp hi with ⟨p, hp, hResult⟩
  rcases List.getElem?_eq_some_iff.mp hp with ⟨hLt, rfl⟩
  refine ⟨ps.take i, ps[i], ps.drop (i + 1), ?_, hResult⟩
  rw [← List.drop_eq_getElem_cons, List.take_append_drop]

/- Arms are rejected exactly if there are problems to report. -/
theorem rejects_iff :
    r.Rejects ctx slot ps ↔
      rejectionProblems (r.checkArms ctx slot ps).2 ≠ [] := by
  constructor
  · rintro ⟨before, p, after, problems, rfl, hError⟩
    have hMem :
        .error problems ∈
          (r.checkArms ctx slot (before ++ p :: after)).2 := by
      refine List.mem_of_getElem? (i := before.length) ?_
      rw [getElem?_checkArms, List.take_left, List.getElem?_append_right
        (Nat.le_refl _), Nat.sub_self]
      exact congrArg some hError
    rcases List.exists_mem_of_ne_nil _ (ne_nil_of_armVerdict hError) with
      ⟨problem, hProblem⟩
    exact List.ne_nil_of_mem (List.mem_flatMap.mpr ⟨_, hMem, hProblem⟩)
  · intro hProblems
    rcases List.exists_mem_of_ne_nil _ hProblems with ⟨problem, hMem⟩
    rcases List.mem_flatMap.mp hMem with ⟨result, hResult, hMem⟩
    cases result with
    | ok arm => cases hMem
    | error problems =>
        rcases exists_of_mem_checkArms hResult with
          ⟨before, p, after, hEq, hError⟩
        exact ⟨before, p, after, problems, hEq, hError⟩

/- Without a rejection every result is an accepted arm. -/
theorem checkArms_eq_of_not_rejects
    (h : ¬ r.Rejects ctx slot ps) :
    (r.checkArms ctx slot ps).2 =
      (acceptedArms (r.checkArms ctx slot ps).2).map .ok := by
  refine eq_map_acceptedArms (List.all_eq_true.mpr fun result hResult => ?_)
  cases result with
  | ok arm => rfl
  | error problems =>
      rcases exists_of_mem_checkArms hResult with
        ⟨before, p, after, hEq, hError⟩
      exact (h ⟨before, p, after, problems, hEq, hError⟩).elim

end Registry

end MatchCompiler

------------------------------------------------------------
-- Missing Labels
------------------------------------------------------------

namespace MatchCompiler

/- An arm is not found redundant because labels are missing. -/
theorem Coverage.Walk.isMissing_redundancy?
    {w : Walk}
    {s : Schema}
    {p : Checked}
    {f : CoverageFinding}
    (h : w.redundancy? s p = some f) :
    f.isMissing = false := by
  unfold redundancy? at h
  split at h
  · cases h
    rfl
  · dsimp only at h
    split at h
    · cases h
      rfl
    · cases h

/- A walk finds redundant arms only. -/
theorem Coverage.Walk.isMissing_foldl
    {s : Schema}
    {w : Walk}
    (h : ∀ f ∈ w.redundant, f.2.isMissing = false)
    (arms : List (CheckedArm × Nat)) :
    ∀ f ∈ (arms.foldl (next s) w).redundant, f.2.isMissing = false := by
  induction arms generalizing w with
  | nil => exact h
  | cons arm arms ih =>
      refine ih fun f hf => ?_
      unfold next at hf
      dsimp only at hf
      split at hf
      · rename_i finding hFinding
        rcases List.mem_append.mp hf with hf | hf
        · exact h f hf
        · cases List.mem_singleton.mp hf
          exact isMissing_redundancy? hFinding
      · exact h f hf

/- Coverage reports an error exactly if a label is missing. -/
theorem SchemaPool.exists_isMissing_iff
    (p : SchemaPool)
    (slot : SchemaId)
    (arms : List CheckedArm)
    (span : Span) :
    (∃ f ∈ (p.coverage slot arms span).findings, f.isMissing = true) ↔
      (p.coverage slot arms span).missing ≠ [] := by
  have hRedundant :=
    @Coverage.Walk.isMissing_foldl (p.get slot) {} nofun arms.zipIdx
  constructor
  · rintro ⟨f, hf, hMissing⟩ hNil
    unfold coverage Schema.coverage at hf hNil
    dsimp only at hf hNil
    rw [hNil, if_pos List.isEmpty_nil, List.nil_append] at hf
    rcases List.mem_map.mp hf with ⟨found, hFound, rfl⟩
    rw [hRedundant found hFound] at hMissing
    cases hMissing
  · intro hSome
    unfold coverage Schema.coverage at hSome ⊢
    dsimp only at hSome ⊢
    rw [if_neg (fun hEmpty => hSome (List.isEmpty_iff.mp hEmpty))]
    exact ⟨_, List.mem_append_left _ (List.mem_singleton_self _), rfl⟩

namespace Session

variable {s : Session}
variable {c : Coverage}

theorem ratedByCode_of_mem_coverageDiagnostics
    {d : Diagnostic}
    (h : d ∈ s.coverageDiagnostics c) :
    d.RatedByCode := by
  rcases List.mem_map.mp (List.mem_filter.mp h).1 with ⟨f, -, rfl⟩
  exact f.ratedByCode

/- No option keeps a missing label from being reported. -/
theorem exists_error_coverageDiagnostics_iff :
    (∃ d ∈ s.coverageDiagnostics c, d.isError = true) ↔
      ∃ f ∈ c.findings, f.isMissing = true := by
  constructor
  · rintro ⟨d, hd, hError⟩
    rcases List.mem_map.mp (List.mem_filter.mp hd).1 with ⟨f, hf, rfl⟩
    exact ⟨f, hf, f.isError_diagnostic ▸ hError⟩
  · rintro ⟨f, hf, hMissing⟩
    have hError := f.isError_diagnostic.trans hMissing
    refine ⟨f.diagnostic, List.mem_filter.mpr
      ⟨List.mem_map_of_mem hf, (Bool.or_eq_true _ _).mpr (.inr ?_)⟩, hError⟩
    exact f.ratedByCode ▸ hError

end Session

end MatchCompiler

------------------------------------------------------------
-- Runs Without Faults
------------------------------------------------------------

namespace MatchCompiler

namespace Session

/-
  Compile a match by a run that stops at the first fault:
  the types have to be extracted to the end, and every slot
  that is looked up has to be there.
-/
def compile?
    (s : Session)
    (scrutinee : DescriptorId)
    (arms : List Pattern)
    (span : Span) :
    Trial (Session × Except (List Diagnostic) CompiledMatch) := do
  let (registry, id) ←
    s.registry.extractTrial s.table (s.nesting s.table + 1) scrutinee
  let (registry, results) ← registry.checkArms? s.context id arms
  let s := { s with registry }
  let queue := s.queueAfterArms results
  if queue.hasErrors.isSome then
    return (s, .error queue.flush.2)
  else
    let accepted := acceptedArms results
    let coverage ← s.registry.pool.coverage? id accepted span
    return (s, s.conclude id accepted queue coverage)

/- It compiles the match, unless an extraction does not end. -/
theorem compile?_yields
    {s : Session}
    (h : s.registry.Settled)
    (scrutinee : DescriptorId)
    (arms : List Pattern)
    (span : Span) :
    (s.compile? scrutinee arms span).Yields (s.registry.Stalls s.context)
      (s.compile scrutinee arms span) := by
  have hUse :=
    s.registry.use_schemaWithin s.table (s.nesting s.table) scrutinee
  have hExtracts :
      (s.registry.extractTrial s.table (s.nesting s.table + 1)
        scrutinee).Yields (s.registry.Stalls s.context)
        (s.registry.schemaWithin s.table (s.nesting s.table) scrutinee) :=
    h.extractTrial_yields s.context scrutinee
  unfold compile schemaOf checkArms
  cases hFirst :
      s.registry.schemaWithin s.table (s.nesting s.table) scrutinee with
  | mk r id =>
      rw [hFirst] at hUse hExtracts
      rcases hUse.settled h with ⟨hSettled, hId⟩
      rcases Registry.checkArms_stays hSettled hId s.context arms with
        ⟨hLater, -, hChecks⟩
      have hSize := (hLater.settled hSettled).2.pool.size_le
      have hCoverage := SchemaPool.coverage?_eq (hId.trans_le hSize)
      refine hExtracts.bind (hChecks.bind ?_ fun h => h)
        (.of_later (.single ⟨_, hUse⟩))
      dsimp only
      split
      · rename_i hErrors
        exact .inl (congrArg Except.ok (if_pos hErrors).symm)
      · rename_i hErrors
        rw [hCoverage]
        exact .inl (congrArg Except.ok (if_neg hErrors).symm)

end Session

end MatchCompiler

------------------------------------------------------------
-- The Verdict
------------------------------------------------------------

namespace MatchCompiler

/- The clauses of a procedure stand beside the arms. -/
theorem Procedure.getElem?_clauses_ofArms
    {o : LoweringOptions}
    {arms : List CheckedArm}
    {slot : SchemaId}
    {exhaustive : Bool}
    {i : Nat} :
    (ofArms o arms slot exhaustive).clauses[i]? =
      arms[i]?.map fun arm => arm.clause o i := by
  simp only [ofArms, List.getElem?_map, List.getElem?_zipIdx, Nat.zero_add,
    Option.map_map, Function.comp_def]

namespace Session

variable (s : Session)
variable (scrutinee : DescriptorId)
variable (arms : List Pattern)
variable (span : Span)

/- The results of checking all arms of a match. -/
def resultsOf :
    Registry × List (Except (List Problem) CheckedArm) :=
  let (s, slot) := s.schemaOf scrutinee
  s.registry.checkArms s.context slot arms

/- The coverage of the arms of a match, once all are checked. -/
def coverageOf : Coverage :=
  let (r, results) := s.resultsOf scrutinee arms
  r.pool.coverage (s.schemaOf scrutinee).2 (acceptedArms results) span

/- The verdict on an arm when it is its turn. -/
def armVerdict
    (before : List Pattern)
    (p : Pattern) : Except (List Problem) CheckedArm :=
  let (s, slot) := s.schemaOf scrutinee
  s.registry.armVerdict s.context slot before p

/-
  A stage of a match fails: an arm is rejected when it is its
  turn, or coverage is asked for and a label is missing.
-/
def StageFails : Prop :=
  (∃ before p after problems, arms = before ++ p :: after ∧
    s.armVerdict scrutinee before p = .error problems) ∨
  s.options.checkExhaustiveness = true ∧
    (s.coverageOf scrutinee arms span).missing ≠ []

/-
  A compiled match has one clause for each arm, numbered in
  order and made of what the arm was checked to, is marked as
  coverage says if that was asked for, and only warns.
-/
structure IsCompiled (m : CompiledMatch) : Prop where
  length : m.procedure.clauses.length = arms.length
  numbered :
    ∀ (i : Nat) (c : Clause), m.procedure.clauses[i]? = some c → c.arm = i
  lowered :
    ∀ (i : Nat) (p : Pattern), arms[i]? = some p →
      ∃ arm, s.armVerdict scrutinee (arms.take i) p = .ok arm ∧
        m.procedure.clauses[i]? = some (arm.clause s.options.lowering i)
  exhaustive :
    m.procedure.exhaustive =
      (s.options.checkExhaustiveness &&
        (s.coverageOf scrutinee arms span).exhaustive)
  warnings : ∀ d ∈ m.warnings, d.isError = false

/- The reports on rejected arms. -/
def problemReports : List Diagnostic :=
  (rejectionProblems (s.resultsOf scrutinee arms).2).map Problem.diagnostic

/- The reports on coverage, if that is asked for. -/
def coverageReports : List Diagnostic :=
  if s.options.checkExhaustiveness then
    s.coverageDiagnostics (s.coverageOf scrutinee arms span)
  else
    []

/- A queue to which some reports were made. -/
def queueOf (ds : List Diagnostic) : DiagnosticQueue :=
  ({ config := { errorLimit := s.options.errorLimit } } :
    DiagnosticQueue).extend ds

/-
  The queue is asked for errors after the arms were checked
  and after coverage was.
-/
theorem compile_eq :
    (s.compile scrutinee arms span).2 =
      let problems := s.problemReports scrutinee arms
      let reports := problems ++ s.coverageReports scrutinee arms span
      if (s.queueOf problems).hasErrors.isSome then
        .error (s.queueOf problems).flush.2
      else if (s.queueOf reports).hasErrors.isSome then
        .error (s.queueOf reports).flush.2
      else
        .ok
          { procedure :=
              .ofArms s.options.lowering
                (acceptedArms (s.resultsOf scrutinee arms).2)
                (s.schemaOf scrutinee).2
                (s.options.checkExhaustiveness &&
                  (s.coverageOf scrutinee arms span).exhaustive)
            warnings := (s.queueOf reports).flush.2 } := by
  have hReports :
      s.queueOf (s.problemReports scrutinee arms ++
          s.coverageReports scrutinee arms span) =
        if s.options.checkExhaustiveness then
          (s.queueOf (s.problemReports scrutinee arms)).extend
            (s.coverageDiagnostics (s.coverageOf scrutinee arms span))
        else
          s.queueOf (s.problemReports scrutinee arms) := by
    unfold queueOf coverageReports DiagnosticQueue.extend
    rw [List.foldl_append]
    split <;> rfl
  dsimp only
  rw [hReports]
  by_cases hProblems :
      (s.queueOf (s.problemReports scrutinee arms)).hasErrors.isSome = true
  · rw [if_pos hProblems]
    exact congrArg Prod.snd (if_pos hProblems)
  · rw [if_neg hProblems]
    exact congrArg Prod.snd (if_neg hProblems)

/- A queue records what was reported to it. -/
theorem records_queueOf
    (ds : List Diagnostic) :
    (s.queueOf ds).Records ds :=
  (DiagnosticQueue.records_nil _).extend ds

theorem ratedByCode_of_mem_reports
    {d : Diagnostic}
    (h :
      d ∈ s.problemReports scrutinee arms ++
        s.coverageReports scrutinee arms span) :
    d.RatedByCode := by
  rcases List.mem_append.mp h with h | h
  · rcases List.mem_map.mp h with ⟨p, -, rfl⟩
    exact p.isValidationError.ratedByCode
  · unfold coverageReports at h
    split at h
    · exact ratedByCode_of_mem_coverageDiagnostics h
    · cases h

/- The first queue has errors exactly if an arm is rejected. -/
theorem hasErrors_problems_iff :
    (s.queueOf (s.problemReports scrutinee arms)).hasErrors.isSome = true ↔
      (s.schemaOf scrutinee).1.registry.Rejects s.context
        (s.schemaOf scrutinee).2 arms := by
  rw [Registry.rejects_iff, (s.records_queueOf _).hasErrors_iff fun d hd =>
    s.ratedByCode_of_mem_reports scrutinee arms {}
      (List.mem_append_left _ hd)]
  constructor
  · rintro ⟨d, hd, -⟩
    exact fun hNil => List.ne_nil_of_mem hd (congrArg (List.map _) hNil)
  · intro hProblems
    rcases List.exists_mem_of_ne_nil _ hProblems with ⟨p, hp⟩
    exact ⟨_, List.mem_map_of_mem hp, p.isValidationError.isError⟩

/- The second has errors exactly if a stage fails. -/
theorem hasErrors_reports_iff :
    (s.queueOf (s.problemReports scrutinee arms ++
        s.coverageReports scrutinee arms span)).hasErrors.isSome = true ↔
      s.StageFails scrutinee arms span := by
  have hCoverage :
      (∃ d ∈ s.coverageReports scrutinee arms span, d.isError = true) ↔
        s.options.checkExhaustiveness = true ∧
          (s.coverageOf scrutinee arms span).missing ≠ [] := by
    unfold coverageReports
    split
    · rename_i hChecked
      rw [exists_error_coverageDiagnostics_iff]
      exact (SchemaPool.exists_isMissing_iff ..).trans
        (iff_and_self.mpr fun _ => hChecked)
    · rename_i hUnchecked
      exact iff_of_false nofun fun h => hUnchecked h.1
  have hProblems := s.hasErrors_problems_iff scrutinee arms
  rw [(s.records_queueOf _).hasErrors_iff fun d hd =>
    s.ratedByCode_of_mem_reports scrutinee arms {}
      (List.mem_append_left _ hd)] at hProblems
  rw [(s.records_queueOf _).hasErrors_iff fun d hd =>
    s.ratedByCode_of_mem_reports scrutinee arms span hd]
  unfold StageFails
  refine Iff.trans ?_ (or_congr hProblems hCoverage)
  simp only [List.mem_append, or_and_right, exists_or]

/- What is compiled has a clause for every arm. -/
theorem isCompiled_of_hasErrors
    (hErrors :
      (s.queueOf (s.problemReports scrutinee arms ++
        s.coverageReports scrutinee arms span)).hasErrors.isSome = false)
    (hAccepted :
      ¬ (s.schemaOf scrutinee).1.registry.Rejects s.context
        (s.schemaOf scrutinee).2 arms) :
    s.IsCompiled scrutinee arms span
      { procedure :=
          .ofArms s.options.lowering
            (acceptedArms (s.resultsOf scrutinee arms).2)
            (s.schemaOf scrutinee).2
            (s.options.checkExhaustiveness &&
              (s.coverageOf scrutinee arms span).exhaustive)
        warnings :=
          (s.queueOf (s.problemReports scrutinee arms ++
            s.coverageReports scrutinee arms span)).flush.2 } := by
  have hResults :
      (s.resultsOf scrutinee arms).2 =
        (acceptedArms (s.resultsOf scrutinee arms).2).map .ok :=
    Registry.checkArms_eq_of_not_rejects hAccepted
  constructor
  · have hLength :
        (s.resultsOf scrutinee arms).2.length = arms.length :=
      Registry.length_checkArms
    rw [hResults, List.length_map] at hLength
    simp only [Procedure.ofArms, List.length_map, List.length_zipIdx]
    exact hLength
  · intro i c hc
    rw [Procedure.getElem?_clauses_ofArms] at hc
    rcases Option.map_eq_some_iff.mp hc with ⟨arm, -, rfl⟩
    rfl
  · intro i p hp
    have hResult :
        (s.resultsOf scrutinee arms).2[i]? =
          some (s.armVerdict scrutinee (arms.take i) p) :=
      (Registry.getElem?_checkArms i).trans (congrArg (Option.map _) hp)
    rw [hResults, List.getElem?_map] at hResult
    rcases Option.map_eq_some_iff.mp hResult with ⟨arm, hArm, hVerdict⟩
    refine ⟨arm, hVerdict.symm, ?_⟩
    rw [Procedure.getElem?_clauses_ofArms, hArm]
    rfl
  · rfl
  · exact fun d hd => (s.records_queueOf _).isError_eq_false hErrors hd

/-
  Whatever the limit of errors and the reports that are asked
  for, a match is given up exactly if a stage fails, with a
  sorted report that has an error; otherwise it is compiled.
  This is also the verdict of the run that waits for every
  extraction, if these end.
-/
theorem compile_verdict :
    (s.StageFails scrutinee arms span ↔
      ∃ ds, (s.compile scrutinee arms span).2 = .error ds) ∧
    (∀ ds, (s.compile scrutinee arms span).2 = .error ds →
      IsErrorReport ds) ∧
    (∀ m, (s.compile scrutinee arms span).2 = .ok m →
      s.IsCompiled scrutinee arms span m) ∧
    (s.registry.Settled →
      (s.compile? scrutinee arms span).Yields
        (s.registry.Stalls s.context)
        (s.compile scrutinee arms span)) := by
  have hProblems := s.hasErrors_problems_iff scrutinee arms
  have hReports := s.hasErrors_reports_iff scrutinee arms span
  have hEnds (h : s.registry.Settled) :=
    compile?_yields h scrutinee arms span
  rw [compile_eq]
  dsimp only
  split
  · rename_i hFirst
    refine ⟨iff_of_true (.inl (hProblems.mp hFirst)) ⟨_, rfl⟩, ?_, nofun,
      hEnds⟩
    rintro ds ⟨⟩
    exact (s.records_queueOf _).isErrorReport hFirst
  · rename_i hFirst
    split
    · rename_i hSecond
      refine ⟨iff_of_true (hReports.mp hSecond) ⟨_, rfl⟩, ?_, nofun, hEnds⟩
      rintro ds ⟨⟩
      exact (s.records_queueOf _).isErrorReport hSecond
    · rename_i hSecond
      refine ⟨iff_of_false (hSecond ∘ hReports.mpr) nofun, nofun, ?_,
        hEnds⟩
      rintro m ⟨⟩
      exact s.isCompiled_of_hasErrors scrutinee arms span
        (Bool.eq_false_iff.mpr hSecond) (hFirst ∘ hProblems.mpr)

end Session

end MatchCompiler
