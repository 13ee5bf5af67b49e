import MatchCompiler.Proofs.QueueRuns

/-
  This file shows what the evidence of an error is worth that
  a queue hands out.

  Evidence is handed out for every error, accepted or not. An
  error that is refused at the limit leaves good evidence, as
  an error has been accepted before. An error that repeats a
  diagnostic is refused as well, and the diagnostic need not
  be an error: then the evidence is good only if another error
  is held. This is the one way in which it can be bad, and it
  is the same for a queue that remembers hashes of messages,
  whatever their collisions.

  Key definitions include:
    * `Silenced`

  Key theorems include:
    * `LoggedQueue.lawful_run_addHashed`
    * `LoggedQueue.hasErrors_offer_iff`
    * `LoggedQueue.evidence_iff`
-/

------------------------------------------------------------
-- Queues With Hashes
------------------------------------------------------------

namespace MatchCompiler

/- What is not refused by hashes is not refused at all. -/
theorem DiagnosticQueue.addHashed_cases
    (hash : String → UInt64)
    (q : DiagnosticQueue)
    (d : Diagnostic) :
    q.addHashed hash d = (q, false) ∨
    q.refuses d = false ∧ q.addHashed hash d = (q.accept d, true) := by
  unfold addHashed refuses
  split
  · exact .inl rfl
  · rename_i hKept
    refine .inr ⟨?_, rfl⟩
    rw [← Bool.not_eq_true]
    intro hRefused
    apply hKept
    simp only [Bool.or_eq_true, Bool.and_eq_true,
      List.contains_iff_mem] at hRefused ⊢
    apply hRefused.imp_right
    intro hSeen
    exact ⟨hSeen.1, List.mem_map_of_mem hSeen.2⟩

namespace LoggedQueue

variable {config : QueueConfig}
variable {hash : String → UInt64}
variable {l : LoggedQueue}
variable {d : Diagnostic}

/-
  The laws of a queue hold with hashes as well, even if two
  messages have one hash.
-/
theorem Lawful.offer_addHashed
    (h : l.Lawful config)
    (hash : String → UInt64)
    (d : Diagnostic) :
    (l.offer (DiagnosticQueue.addHashed hash) d).Lawful config :=
  h.offer_of (l.queue.addHashed_cases hash d)

theorem lawful_run_addHashed
    (hash : String → UInt64)
    (config : QueueConfig)
    (ops : List QueueOp) :
    (run (DiagnosticQueue.addHashed hash) config ops).Lawful config :=
  run_keeps (fun _ d h => h.offer_addHashed hash d)
    (fun _ h => h.flush) (.fresh config) ops

/- Why a diagnostic is refused when hashes are compared. -/
theorem Lawful.addHashed_eq_false_iff
    (h : l.Lawful config) :
    (l.queue.addHashed hash d).2 = false ↔
      (d.isError = true ∧ 0 < config.errorLimit ∧
        config.errorLimit ≤ l.accepted.countP Diagnostic.isError) ∨
      (config.deduplicate = true ∧
        ∃ e ∈ l.accepted, e.key.hashed hash = d.key.hashed hash) := by
  have hAnswer :
      (l.queue.addHashed hash d).2 = false ↔
        (d.isError = true ∧ l.queue.limitReached = true) ∨
        (l.queue.config.deduplicate = true ∧
          ∃ k ∈ l.queue.seen, k.hashed hash = d.key.hashed hash) := by
    unfold DiagnosticQueue.addHashed
    rw [← List.mem_map, ← List.contains_iff_mem]
    split <;> simp_all
  have hSeen :
      (config.deduplicate = true ∧
        ∃ k ∈ l.queue.seen, k.hashed hash = d.key.hashed hash) ↔
      config.deduplicate = true ∧
        ∃ e ∈ l.accepted, e.key.hashed hash = d.key.hashed hash := by
    apply and_congr_right
    intro hDedup
    simp only [h.seen_iff, hDedup, true_and]
    constructor
    · rintro ⟨k, ⟨e, he, rfl⟩, hSame⟩
      exact ⟨e, he, hSame⟩
    · rintro ⟨e, he, hSame⟩
      exact ⟨e.key, ⟨e, he, rfl⟩, hSame⟩
  rw [hAnswer, h.config_eq, hSeen]
  unfold DiagnosticQueue.limitReached
  simp only [Bool.and_eq_true, decide_eq_true_eq, h.config_eq, h.errors_eq]

end LoggedQueue

end MatchCompiler

------------------------------------------------------------
-- Evidence
------------------------------------------------------------

namespace MatchCompiler

/-
  An error that repeats a diagnostic is lost without a trace
  if no error is held.
-/
def Silenced
    (config : QueueConfig)
    (held : List Diagnostic)
    (repeats : Diagnostic → Prop) : Prop :=
  (config.deduplicate = true ∧ ∃ e ∈ held, repeats e) ∧
    ∀ e ∈ held, e.isError = false

namespace LoggedQueue

variable {config : QueueConfig}
variable {l : LoggedQueue}
variable {d : Diagnostic}

/- A queue finds errors if and only if it holds one. -/
theorem Lawful.hasErrors_iff
    (h : l.Lawful config) :
    l.queue.hasErrors = some {} ↔
      ∃ e ∈ l.queue.held, e.isError = true := by
  unfold DiagnosticQueue.hasErrors ErrorReported.ofCount
  rw [h.errors_eq, ← h.held_eq, ← List.countP_pos_iff]
  split <;> simp_all

/-
  After an error was offered there are errors, unless it was
  refused as a repetition and there were none before.
-/
theorem hasErrors_offer_iff
    {add : Adding}
    {repeats : Diagnostic → Prop}
    (hNext : (l.offer add d).Lawful config)
    (hError : d.isError = true)
    (hAnswer :
      (add l.queue d).2 = false ↔
        (d.isError = true ∧ 0 < config.errorLimit ∧
          config.errorLimit ≤ l.accepted.countP Diagnostic.isError) ∨
        (config.deduplicate = true ∧ ∃ e ∈ l.accepted, repeats e)) :
    (l.offer add d).queue.hasErrors = some {} ↔
      ¬ Silenced config l.accepted repeats := by
  have hLimit :
      0 < config.errorLimit →
      config.errorLimit ≤ l.accepted.countP Diagnostic.isError →
        ∃ e ∈ l.accepted, e.isError = true := by
    intro hPos hLe
    apply List.countP_pos_iff.mp
    omega
  rw [hNext.hasErrors_iff, hNext.held_eq]
  unfold Silenced offer
  cases hKept : (add l.queue d).2 with
  | true =>
      have hNew :
          ¬ (config.deduplicate = true ∧ ∃ e ∈ l.accepted, repeats e) := by
        intro hRepeats
        have hFalse := hAnswer.mpr (.inr hRepeats)
        rw [hKept] at hFalse
        cases hFalse
      have hHeld : ∃ e ∈ l.accepted ++ [d], e.isError = true :=
        ⟨d, List.mem_append_right _ (List.mem_singleton_self d), hError⟩
      exact iff_of_true hHeld fun hSilenced => hNew hSilenced.1
  | false =>
      constructor
      · rintro ⟨e, he, hIsError⟩ hSilenced
        have hNone := hSilenced.2 e he
        rw [hIsError] at hNone
        cases hNone
      · intro hNot
        by_contra hNone
        apply hNot
        have hNoError : ∀ e ∈ l.accepted, e.isError = false := by
          intro e he
          rw [← Bool.not_eq_true]
          exact fun hIsError => hNone ⟨e, he, hIsError⟩
        rcases hAnswer.mp hKept with ⟨-, hPos, hLe⟩ | hRepeats
        · exact absurd (hLimit hPos hLe) hNone
        · exact ⟨hRepeats, hNoError⟩

/-
  After any operations an error is emitted. The evidence that
  is handed out is what the queue itself says afterwards, and
  an error is held, if and only if the error has not been
  silenced by a diagnostic with its key. With hashes of
  messages it is silenced by one with the same hash.
-/
theorem evidence_iff
    (hash : String → UInt64)
    (config : QueueConfig)
    (ops : List QueueOp)
    {d : Diagnostic}
    (hError : d.isError = true) :
    let q := ops.foldl QueueOp.apply { config }
    let l := run (DiagnosticQueue.addHashed hash) config ops
    let l' := run (DiagnosticQueue.addHashed hash) config
      (ops ++ [.emitError d])
    ((q.emitError d).1.hasErrors = some (q.emitError d).2 ↔
      ¬ Silenced config q.held (fun e => e.key = d.key)) ∧
    ((q.emitError d).1.hasErrors = some (q.emitError d).2 ↔
      ∃ e ∈ (q.emitError d).1.held, e.isError = true) ∧
    (l'.queue.hasErrors = some {} ↔
      ¬ Silenced config l.queue.held
        (fun e => e.key.hashed hash = d.key.hashed hash)) ∧
    (l'.queue.hasErrors = some {} ↔
      ∃ e ∈ l'.queue.held, e.isError = true) := by
  intro q l l'
  have hPlain := lawful_run config ops
  have hQueue : (run DiagnosticQueue.add config ops).queue = q :=
    queue_run config ops
  have hEmitted :
      ((run DiagnosticQueue.add config ops).offer DiagnosticQueue.add
        d).queue = (q.emitError d).1 := by
    rw [← hQueue]
    rfl
  have hHashed : l.Lawful config := lawful_run_addHashed hash config ops
  have hLast : l' = l.offer (DiagnosticQueue.addHashed hash) d :=
    List.foldl_concat ..
  have hNext : l'.Lawful config := lawful_run_addHashed hash config _
  refine ⟨?_, ?_, ?_, hNext.hasErrors_iff⟩
  · rw [← hEmitted, ← hQueue, hPlain.held_eq]
    exact hasErrors_offer_iff (hPlain.offer d) hError
      hPlain.add_eq_false_iff
  · rw [← hEmitted]
    exact (hPlain.offer d).hasErrors_iff
  · rw [hHashed.held_eq, hLast]
    exact hasErrors_offer_iff (hLast ▸ hNext) hError
      hHashed.addHashed_eq_false_iff

/- A warning with the code and the message of an error. -/
def mildly : Diagnostic :=
  .warning .unknownField "no field `x`"

/- A warning that has been flushed silences no error. -/
theorem flushedWarning_evidence :
    (Diagnostic.error .unknownField "no field `x`").isError = true ∧
    ∃ q, q = [.add mildly, .flush].foldl QueueOp.apply {} ∧
      (q.emitError (.error .unknownField "no field `x`")).1.hasErrors =
        some {} := by
  have hIff := (evidence_iff characterHash {} [.add mildly, .flush]
    (d := .error .unknownField "no field `x`") rfl).1
  refine ⟨rfl, _, rfl, hIff.mpr ?_⟩
  rintro ⟨⟨-, e, he, -⟩, -⟩
  cases he

/-
  A warning silences an error that repeats it: there is
  evidence of an error, and no error.
-/
theorem repeatedWarning_no_evidence :
    ¬ ∀ (config : QueueConfig) (ops : List QueueOp) (d : Diagnostic),
      d.isError = true →
        ((ops.foldl QueueOp.apply { config }).emitError d).1.hasErrors =
          some ((ops.foldl QueueOp.apply { config }).emitError d).2 := by
  intro h
  have hSome := h {} [.add mildly] (.error .unknownField "no field `x`") rfl
  exact absurd hSome (by decide)

end LoggedQueue

end MatchCompiler
