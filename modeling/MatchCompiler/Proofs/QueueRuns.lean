import MatchCompiler.Diagnostic.Queue
import MatchCompiler.Proofs.StableSort
import Mathlib.Data.List.Nodup

/-
  This file shows what holds of a queue of diagnostics in the
  course of any operations on it.

  The operations are followed together with a log of what was
  accepted since the last flush, which is read off the answers
  of the queue. The queue holds what is in the log, its
  counters count it, and a diagnostic is refused only if it is
  an error at the limit or repeats one in the log. A
  diagnostic that has no primary span counts as having the
  empty span at the start of the text when it is compared, and
  as standing at the greatest offset when it is sorted.

  A queue may also remember hashes in the place of messages.
  It does the same as long as no two messages have one hash.

  Key definitions include:
    * `QueueOp`
    * `LoggedQueue`
    * `LoggedQueue.Lawful`
    * `Refused`
    * `DiagnosticQueue.addHashed`

  Key theorems include:
    * `LoggedQueue.Lawful.offer`
    * `LoggedQueue.lawful_run`
    * `LoggedQueue.run_addHashed`
    * `LoggedQueue.queue_laws`
-/

------------------------------------------------------------
-- Operations
------------------------------------------------------------

namespace MatchCompiler

/- The operations on a queue. -/
inductive QueueOp where
| add (d : Diagnostic)
| extend (ds : List Diagnostic)
| emitError (d : Diagnostic)
| flush

namespace QueueOp

/- What an operation makes of a queue. -/
def apply (q : DiagnosticQueue) : QueueOp → DiagnosticQueue
| .add d => (q.add d).1
| .extend ds => q.extend ds
| .emitError d => (q.emitError d).1
| .flush => q.flush.1

/- The diagnostics that an operation offers to a queue. -/
def offers : QueueOp → List Diagnostic
| .add d => [d]
| .extend ds => ds
| .emitError d => [d]
| .flush => []

end QueueOp

/- A way to add a diagnostic, and whether it was accepted. -/
abbrev Adding :=
  DiagnosticQueue → Diagnostic → DiagnosticQueue × Bool

/- A queue and what it has accepted since the last flush. -/
structure LoggedQueue where
  queue : DiagnosticQueue
  accepted : List Diagnostic := []

namespace LoggedQueue

/- Offer a diagnostic, and log it if it is accepted. -/
def offer
    (add : Adding)
    (l : LoggedQueue)
    (d : Diagnostic) : LoggedQueue :=
  { queue := (add l.queue d).1
    accepted :=
      if (add l.queue d).2 then l.accepted ++ [d] else l.accepted }

/- Flushing starts the log anew. -/
def step
    (add : Adding)
    (l : LoggedQueue) : QueueOp → LoggedQueue
| .flush => { queue := l.queue.flush.1 }
| op => op.offers.foldl (offer add) l

/- Operations on a queue that is empty at first. -/
def run
    (add : Adding)
    (config : QueueConfig)
    (ops : List QueueOp) : LoggedQueue :=
  ops.foldl (step add) { queue := { config } }

/- The log does not change what happens to the queue. -/
theorem queue_step
    (l : LoggedQueue)
    (op : QueueOp) :
    (l.step DiagnosticQueue.add op).queue = op.apply l.queue := by
  cases op with
  | add d => rfl
  | emitError d => rfl
  | flush => rfl
  | extend ds =>
      exact (List.foldl_hom LoggedQueue.queue fun _ _ => rfl).symm

theorem queue_run
    (config : QueueConfig)
    (ops : List QueueOp) :
    (run DiagnosticQueue.add config ops).queue =
      ops.foldl QueueOp.apply { config } :=
  (List.foldl_hom LoggedQueue.queue fun l op => (queue_step l op).symm).symm

section

variable {add : Adding}
variable {P : LoggedQueue → Prop}
variable (hOffer : ∀ l d, P l → P (l.offer add d))
variable (hFlush : ∀ l, P l → P { queue := l.queue.flush.1 })

include hOffer hFlush

/- What offers and flushes keep, every operation keeps. -/
theorem step_keeps
    {l : LoggedQueue}
    (h : P l)
    (op : QueueOp) :
    P (l.step add op) := by
  have hOffers :
      ∀ (ds : List Diagnostic) {l : LoggedQueue}, P l →
        P (ds.foldl (offer add) l) := by
    intro ds
    induction ds with
    | nil => exact fun h => h
    | cons d ds ih => exact fun h => ih (hOffer _ d h)
  cases op with
  | add d => exact hOffers [d] h
  | extend ds => exact hOffers ds h
  | emitError d => exact hOffers [d] h
  | flush => exact hFlush l h

/- It holds after any operations if it holds at first. -/
theorem run_keeps
    {config : QueueConfig}
    (hFresh : P { queue := { config } })
    (ops : List QueueOp) :
    P (run add config ops) := by
  suffices ∀ l, P l → P (ops.foldl (step add) l) from this _ hFresh
  induction ops with
  | nil => exact fun l h => h
  | cons op ops ih =>
      exact fun l h => ih _ (step_keeps hOffer hFlush h op)

end

end LoggedQueue

end MatchCompiler

------------------------------------------------------------
-- The Invariant
------------------------------------------------------------

namespace MatchCompiler

/-
  Why a diagnostic is refused: it is an error and as many
  errors have been accepted as are allowed, or it repeats a
  diagnostic that has been accepted.
-/
def Refused
    (config : QueueConfig)
    (accepted : List Diagnostic)
    (d : Diagnostic) : Prop :=
  (d.isError = true ∧ 0 < config.errorLimit ∧
    config.errorLimit ≤ accepted.countP Diagnostic.isError) ∨
  (config.deduplicate = true ∧ ∃ e ∈ accepted, e.key = d.key)

namespace LoggedQueue

/- The queue holds, counts and remembers what is in the log. -/
structure Lawful
    (config : QueueConfig)
    (l : LoggedQueue) : Prop where
  config_eq : l.queue.config = config
  held_eq : l.queue.held = l.accepted
  seen_iff :
    ∀ k, k ∈ l.queue.seen ↔
      config.deduplicate = true ∧ ∃ e ∈ l.accepted, e.key = k
  errors_eq : l.queue.errorCount = l.accepted.countP Diagnostic.isError
  others_eq :
    l.queue.warningCount = l.accepted.countP (fun d => !d.isError)
  limited :
    0 < config.errorLimit →
      l.accepted.countP Diagnostic.isError ≤ config.errorLimit
  distinct :
    config.deduplicate = true → (l.accepted.map Diagnostic.key).Nodup

namespace Lawful

variable {config : QueueConfig}
variable {l : LoggedQueue}
variable {d : Diagnostic}

/- An empty queue with an empty log. -/
theorem fresh
    (config : QueueConfig) :
    Lawful config { queue := { config } } where
  config_eq := rfl
  held_eq := rfl
  seen_iff := fun _ => iff_of_false nofun nofun
  errors_eq := rfl
  others_eq := rfl
  limited := fun _ => Nat.zero_le _
  distinct := fun _ => List.nodup_nil

/- The queue decides by the log. -/
theorem refuses_iff
    (h : l.Lawful config) :
    l.queue.refuses d = true ↔ Refused config l.accepted d := by
  unfold DiagnosticQueue.refuses DiagnosticQueue.limitReached Refused
  simp only [Bool.or_eq_true, Bool.and_eq_true, decide_eq_true_eq,
    List.contains_iff_mem, h.config_eq, h.seen_iff, h.errors_eq]
  tauto

/- The answer of the queue tells whether it refuses. -/
theorem add_eq_false_iff
    (h : l.Lawful config) :
    (l.queue.add d).2 = false ↔ Refused config l.accepted d := by
  rw [← h.refuses_iff]
  unfold DiagnosticQueue.add
  split <;> simp_all

/- A diagnostic that is accepted is logged. -/
theorem accept
    (h : l.Lawful config)
    (hNot : ¬ Refused config l.accepted d) :
    Lawful config
      { queue := l.queue.accept d, accepted := l.accepted ++ [d] } := by
  unfold Refused at hNot
  rw [not_or] at hNot
  rcases hNot with ⟨hLimit, hNew⟩
  refine
    { config_eq := h.config_eq
      held_eq := congrArg (· ++ [d]) h.held_eq
      seen_iff := fun k => ?_
      errors_eq := ?_
      others_eq := ?_
      limited := fun hPos => ?_
      distinct := fun hDedup => ?_ }
  · simp only [DiagnosticQueue.accept, h.config_eq, List.mem_append,
      List.mem_singleton, or_and_right, exists_or, exists_eq_left]
    cases hDedup : config.deduplicate with
    | false =>
        rw [if_neg nofun, h.seen_iff, hDedup]
        exact iff_of_false (fun hIn => nomatch hIn.1) fun hIn => nomatch hIn.1
    | true =>
        rw [if_pos rfl, List.mem_cons, h.seen_iff, hDedup]
        simp only [true_and, eq_comm (a := k)]
        exact or_comm
  · simp only [DiagnosticQueue.accept, h.errors_eq, List.countP_append,
      List.countP_singleton]
    split <;> rfl
  · simp only [DiagnosticQueue.accept, h.others_eq, List.countP_append,
      List.countP_singleton]
    cases d.isError <;> rfl
  · have hBelow := h.limited hPos
    rw [List.countP_append, List.countP_singleton]
    split
    · rename_i hError
      have hLt : ¬ config.errorLimit ≤ l.accepted.countP Diagnostic.isError :=
        fun hLe => hLimit ⟨hError, hPos, hLe⟩
      omega
    · exact hBelow
  · rw [List.map_append, List.nodup_append]
    refine ⟨h.distinct hDedup, List.nodup_singleton _, ?_⟩
    intro k hk k' hk' hSame
    rw [List.map_singleton, List.mem_singleton] at hk'
    rcases List.mem_map.mp hk with ⟨e, he, rfl⟩
    exact hNew ⟨hDedup, e, he, hSame.trans hk'⟩

/-
  Offering a diagnostic keeps the laws if it leaves the queue
  alone or is accepted when the queue does not refuse it.
-/
theorem offer_of
    {add : Adding}
    (h : l.Lawful config)
    (hAdd :
      add l.queue d = (l.queue, false) ∨
      l.queue.refuses d = false ∧ add l.queue d = (l.queue.accept d, true)) :
    (l.offer add d).Lawful config := by
  unfold LoggedQueue.offer
  rcases hAdd with hAdd | ⟨hRefuses, hAdd⟩
  · rw [hAdd]
    exact h
  · rw [hAdd]
    apply h.accept
    rw [← h.refuses_iff, hRefuses]
    exact nofun

theorem offer
    (h : l.Lawful config)
    (d : Diagnostic) :
    (l.offer DiagnosticQueue.add d).Lawful config := by
  apply h.offer_of
  cases hRefuses : l.queue.refuses d with
  | true => exact .inl (DiagnosticQueue.add_of_refuses hRefuses)
  | false => exact .inr ⟨rfl, DiagnosticQueue.add_of_not_refuses hRefuses⟩

/- Flushing keeps the laws. -/
theorem flush
    (h : l.Lawful config) :
    Lawful config { queue := l.queue.flush.1 } := by
  rw [DiagnosticQueue.flush_queue, h.config_eq]
  exact fresh config

/- An operation keeps the laws. -/
theorem step
    (h : l.Lawful config)
    (op : QueueOp) :
    (l.step DiagnosticQueue.add op).Lawful config :=
  step_keeps (fun _ d h => h.offer d) (fun _ h => h.flush) h op

end Lawful

/- The laws hold after any operations. -/
theorem lawful_run
    (config : QueueConfig)
    (ops : List QueueOp) :
    (run DiagnosticQueue.add config ops).Lawful config :=
  run_keeps (fun _ d h => h.offer d) (fun _ h => h.flush)
    (.fresh config) ops

end LoggedQueue

end MatchCompiler

------------------------------------------------------------
-- Flushing
------------------------------------------------------------

namespace MatchCompiler

/-
  A list in source order: it goes up by position, and what
  stands at one position is in its order in another list.
-/
structure InSourceOrder (ds accepted : List Diagnostic) : Prop where
  perm : ds.Perm accepted
  upwards :
    ds.Pairwise fun d e =>
      DiagnosticQueue.position d ≤ DiagnosticQueue.position e
  stable :
    ∀ n, ds.filter (fun d => DiagnosticQueue.position d = n) =
      accepted.filter (fun d => DiagnosticQueue.position d = n)

theorem DiagnosticQueue.inSourceOrder_flush
    (q : DiagnosticQueue) :
    InSourceOrder q.flush.2 q.held :=
  ⟨q.flush_perm, pairwise_sortedBy position q.held,
    fun n => filter_sortedBy position n q.held⟩

end MatchCompiler

------------------------------------------------------------
-- Hashes
------------------------------------------------------------

namespace MatchCompiler

/- A key with a hash in the place of the message. -/
def DiagnosticKey.hashed
    (hash : String → UInt64)
    (k : DiagnosticKey) : DiagnosticCode × Span × UInt64 :=
  (k.code, k.span, hash k.message)

/- Record a diagnostic, comparing it by the hashes of messages. -/
def DiagnosticQueue.addHashed
    (hash : String → UInt64) : Adding :=
  fun q d =>
    if (d.isError && q.limitReached) ||
        (q.config.deduplicate &&
          (q.seen.map (DiagnosticKey.hashed hash)).contains
            (d.key.hashed hash)) then
      (q, false)
    else
      (q.accept d, true)

/- No two of some diagnostics have one hash by accident. -/
def TellsApart
    (hash : String → UInt64)
    (ds : List Diagnostic) : Prop :=
  ∀ d ∈ ds, ∀ e ∈ ds, hash d.message = hash e.message →
    d.message = e.message

namespace LoggedQueue

variable {config : QueueConfig}
variable {hash : String → UInt64}
variable {l : LoggedQueue}

/- Hashes that tell messages apart decide as messages do. -/
theorem addHashed_eq
    (h : l.Lawful config)
    {d : Diagnostic}
    (hHash : TellsApart hash (l.accepted ++ [d])) :
    l.queue.addHashed hash d = l.queue.add d := by
  have hSeen :
      (l.queue.seen.map (DiagnosticKey.hashed hash)).contains
          (d.key.hashed hash) = l.queue.seen.contains d.key := by
    rw [Bool.eq_iff_iff, List.contains_iff_mem, List.contains_iff_mem]
    refine ⟨fun hIn => ?_, List.mem_map_of_mem⟩
    rcases List.mem_map.mp hIn with ⟨k, hk, hSame⟩
    rcases ((h.seen_iff k).mp hk).2 with ⟨e, he, rfl⟩
    have hMessage : e.message = d.message := by
      apply hHash e (List.mem_append_left _ he) d (by simp)
      exact congrArg (fun k => k.2.2) hSame
    have hKey : e.key = d.key := by
      unfold DiagnosticKey.hashed at hSame
      unfold Diagnostic.key at hSame ⊢
      simp only [Prod.mk.injEq] at hSame
      rw [hSame.1, hSame.2.1, hMessage]
    exact hKey ▸ hk
  unfold DiagnosticQueue.addHashed DiagnosticQueue.add
    DiagnosticQueue.refuses
  rw [hSeen]

/-
  What has been accepted is among some diagnostics, whose
  messages have hashes of their own.
-/
structure LawfulWithin
    (config : QueueConfig)
    (ds : List Diagnostic)
    (l : LoggedQueue) : Prop where
  lawful : l.Lawful config
  within : l.accepted ⊆ ds

/- Offering one of the diagnostics is the same with hashes. -/
theorem LawfulWithin.offer
    {ds : List Diagnostic}
    (h : l.LawfulWithin config ds)
    (hHash : TellsApart hash ds)
    {d : Diagnostic}
    (hd : d ∈ ds) :
    l.offer (DiagnosticQueue.addHashed hash) d =
        l.offer DiagnosticQueue.add d ∧
      (l.offer DiagnosticQueue.add d).LawfulWithin config ds := by
  have hKnown : l.accepted ++ [d] ⊆ ds :=
    List.append_subset.mpr
      ⟨h.within, List.cons_subset.mpr ⟨hd, List.nil_subset _⟩⟩
  have hSame : l.queue.addHashed hash d = l.queue.add d :=
    addHashed_eq h.lawful fun x hx y hy =>
      hHash x (hKnown hx) y (hKnown hy)
  refine ⟨?_, h.lawful.offer d, ?_⟩
  · unfold LoggedQueue.offer
    rw [hSame]
  · unfold LoggedQueue.offer
    cases (l.queue.add d).2 with
    | false => exact h.within
    | true => exact hKnown

/- So is an operation that offers some of them. -/
theorem LawfulWithin.step
    {ds : List Diagnostic}
    (h : l.LawfulWithin config ds)
    (hHash : TellsApart hash ds)
    {op : QueueOp}
    (hOp : op.offers ⊆ ds) :
    l.step (DiagnosticQueue.addHashed hash) op =
        l.step DiagnosticQueue.add op ∧
      (l.step DiagnosticQueue.add op).LawfulWithin config ds := by
  have hOffers :
      ∀ {l : LoggedQueue} (es : List Diagnostic), es ⊆ ds →
        l.LawfulWithin config ds →
        es.foldl (LoggedQueue.offer (DiagnosticQueue.addHashed hash)) l =
            es.foldl (LoggedQueue.offer DiagnosticQueue.add) l ∧
          (es.foldl (LoggedQueue.offer DiagnosticQueue.add) l).LawfulWithin
            config ds := by
    intro l es hes h
    induction es generalizing l with
    | nil => exact ⟨rfl, h⟩
    | cons e es ih =>
        rcases List.cons_subset.mp hes with ⟨he, hRest⟩
        rcases h.offer hHash he with ⟨hSame, hNext⟩
        rw [List.foldl_cons, hSame]
        exact ih hRest hNext
  cases op with
  | add d => exact hOffers [d] hOp h
  | extend es => exact hOffers es hOp h
  | emitError d => exact hOffers [d] hOp h
  | flush => exact ⟨rfl, h.lawful.step .flush, nofun⟩

/- Whole runs are the same with hashes. -/
theorem run_addHashed
    (config : QueueConfig)
    {ops : List QueueOp}
    (hHash : TellsApart hash (ops.flatMap QueueOp.offers)) :
    run (DiagnosticQueue.addHashed hash) config ops =
      run DiagnosticQueue.add config ops := by
  generalize hAll : ops.flatMap QueueOp.offers = ds at hHash
  have hOps : ∀ op ∈ ops, op.offers ⊆ ds := by
    intro op hop d hd
    rw [← hAll]
    exact List.mem_flatMap.mpr ⟨op, hop, hd⟩
  suffices
      ∀ l : LoggedQueue, l.LawfulWithin config ds →
        ops.foldl (step (DiagnosticQueue.addHashed hash)) l =
          ops.foldl (step DiagnosticQueue.add) l from
    this _ ⟨.fresh config, nofun⟩
  clear hAll
  intro l h
  induction ops generalizing l with
  | nil => rfl
  | cons op ops ih =>
      rcases List.forall_mem_cons.mp hOps with ⟨hFirst, hRest⟩
      rcases h.step hHash hFirst with ⟨hSame, hNext⟩
      rw [List.foldl_cons, List.foldl_cons, hSame]
      exact ih hRest _ hNext

end LoggedQueue

end MatchCompiler

------------------------------------------------------------
-- Queue Laws
------------------------------------------------------------

namespace MatchCompiler

namespace LoggedQueue

/-
  After any operations on an empty queue, which may remember
  hashes of messages if these tell the messages apart, the
  queue holds what it has accepted since the last flush. The
  counters count it; the errors are no more than the limit; no
  two diagnostics have the same key; a diagnostic is refused
  just if it is an error at the limit or has the key of one
  that has been accepted. A flush hands out all that has been
  accepted, in source order, and leaves an empty queue, which
  accepts any diagnostic.
-/
theorem queue_laws
    (hash : String → UInt64)
    (config : QueueConfig)
    (ops : List QueueOp)
    (hHash : TellsApart hash (ops.flatMap QueueOp.offers)) :
    let l := run (DiagnosticQueue.addHashed hash) config ops
    l.queue = ops.foldl QueueOp.apply { config } ∧
    l.queue.held = l.accepted ∧
    l.queue.errorCount = l.queue.held.countP Diagnostic.isError ∧
    l.queue.warningCount = l.queue.held.countP (fun d => !d.isError) ∧
    (0 < config.errorLimit →
      l.queue.held.countP Diagnostic.isError ≤ config.errorLimit) ∧
    (config.deduplicate = true →
      (l.queue.held.map Diagnostic.key).Nodup) ∧
    (∀ d, (l.queue.add d).2 = false ↔ Refused config l.accepted d) ∧
    InSourceOrder l.queue.flush.2 l.accepted ∧
    l.queue.flush.1 = { config } ∧
    ∀ d, (l.queue.flush.1.add d).2 = true := by
  intro l
  have hSame : l = run DiagnosticQueue.add config ops :=
    run_addHashed config hHash
  have h : l.Lawful config := hSame ▸ lawful_run config ops
  have hEmpty : l.queue.flush.1 = { config } := by
    rw [DiagnosticQueue.flush_queue, h.config_eq]
  refine ⟨hSame ▸ queue_run config ops, h.held_eq, ?_, ?_, ?_, ?_,
    fun d => h.add_eq_false_iff, ?_, hEmpty, fun d => ?_⟩
  · rw [h.held_eq, h.errors_eq]
  · rw [h.held_eq, h.others_eq]
  · rw [h.held_eq]
    exact h.limited
  · rw [h.held_eq]
    exact h.distinct
  · rw [← h.held_eq]
    exact l.queue.inSourceOrder_flush
  · rw [hEmpty]
    refine Bool.of_not_eq_false fun hFalse => ?_
    rcases (Lawful.fresh config).add_eq_false_iff.mp hFalse with
      ⟨-, hPos, hLe⟩ | ⟨-, e, he, -⟩
    · exact Nat.lt_irrefl _ (Nat.lt_of_lt_of_le hPos hLe)
    · cases he

/- A warning without a label. -/
def unplaced (message : String) : Diagnostic :=
  .warning .unreachableArm message

/- A warning at a place of the text. -/
def placed
    (start : Nat)
    (message : String) : Diagnostic :=
  (unplaced message).withLabel { start, stop := start } "here"

/- A hash of the characters of a message. -/
def characterHash (message : String) : UInt64 :=
  message.toList.foldl (fun hash c => hash * 31 + c.toNat.toUInt64) 7

/- Warnings, one of them twice, and two errors. -/
def crowdedOps : List QueueOp :=
  [.add (placed 9 "late"), .flush, .add (placed 9 "late"),
    .emitError (.error .unknownField "first"),
    .extend [placed 9 "late", .error .unknownCase "second", placed 2 "early"]]

/- One error is held, the repetition and the other one are not. -/
theorem crowdedOps_laws :
    TellsApart characterHash (crowdedOps.flatMap QueueOp.offers) ∧
    ∃ l, l = run (DiagnosticQueue.addHashed characterHash)
        { errorLimit := 1 } crowdedOps ∧
      l.accepted =
        [placed 9 "late", .error .unknownField "first", placed 2 "early"] ∧
      l.queue.held = l.accepted ∧
      l.queue.errorCount = 1 ∧
      (l.queue.add (.error .unknownCase "second")).2 = false ∧
      InSourceOrder l.queue.flush.2 l.accepted ∧
      (l.queue.flush.1.add (placed 9 "late")).2 = true := by
  have hHash :
      TellsApart characterHash (crowdedOps.flatMap QueueOp.offers) := by
    unfold TellsApart
    decide +kernel
  rcases queue_laws characterHash { errorLimit := 1 } crowdedOps hHash with
    ⟨-, hHeld, hErrors, -, -, -, hRefused, hFlush, -, hAgain⟩
  have hAccepted :
      (run (DiagnosticQueue.addHashed characterHash) { errorLimit := 1 }
        crowdedOps).accepted =
      [placed 9 "late", .error .unknownField "first", placed 2 "early"] := by
    decide +kernel
  refine ⟨hHash, _, rfl, hAccepted, hHeld, ?_, ?_, hFlush, hAgain _⟩
  · rw [hErrors, hHeld, hAccepted]
    rfl
  · refine (hRefused _).mpr (.inl ⟨rfl, Nat.one_pos, ?_⟩)
    rw [hAccepted]
    decide

/- Two warnings of one message, and one at the greatest offset. -/
def unplacedAgain : List QueueOp :=
  [.add (placed 0 "arm never matches"), .add (unplaced "no arm matches"),
    .add (placed 4294967295 "arm is redundant")]

/-
  A warning without a place is refused although no warning
  without a place has its message, and it does not come after
  the one at the greatest offset.
-/
theorem unplacedAgain_conflated :
    (¬ ∀ d,
      ((unplacedAgain.foldl QueueOp.apply {}).add d).2 = false →
        d.isError = true ∨
        ∃ e ∈ (unplacedAgain.foldl QueueOp.apply {}).held,
          e.code = d.code ∧ e.primarySpan = d.primarySpan ∧
            e.message = d.message) ∧
    ¬ (unplacedAgain.foldl QueueOp.apply {}).flush.2.Pairwise
      (fun d e => d.primarySpan = none → e.primarySpan = none) := by
  have hHeld :
      (unplacedAgain.foldl QueueOp.apply {}).held =
        [placed 0 "arm never matches", unplaced "no arm matches",
          placed 4294967295 "arm is redundant"] := by
    decide +kernel
  refine ⟨fun h => ?_, fun h => ?_⟩
  · have hRefused :
        ((unplacedAgain.foldl QueueOp.apply {}).add
          (unplaced "arm never matches")).2 = false := by
      decide +kernel
    have hWhy := h _ hRefused
    rw [hHeld] at hWhy
    exact absurd hWhy (by decide)
  · unfold DiagnosticQueue.flush at h
    rw [hHeld, List.mergeSort_of_pairwise (by decide)] at h
    exact absurd h (by decide)

end LoggedQueue

end MatchCompiler
