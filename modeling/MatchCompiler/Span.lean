/-
  This file defines source spans: half-open ranges of byte
  offsets in the text a pattern was written in.

  Key definitions include:
    * `Span`
    * `Span.length`
    * `Span.contains`
    * `Span.merge`
    * `Span.text`

  Key theorems include:
    * `Span.merge_comm`
    * `Span.merge_assoc`
    * `Span.contains_merge_left`
    * `Span.contains_merge_right`
-/

------------------------------------------------------------
-- Spans
------------------------------------------------------------

namespace MatchCompiler

/-
  The bytes from `start` up to, and without, `stop`. The
  span of a node that no source text stands for is empty
  and sits at zero.
-/
structure Span where
  start : Nat := 0
  stop : Nat := 0
deriving DecidableEq, Inhabited

namespace Span

/- Number of bytes covered. -/
def length (s : Span) : Nat :=
  s.stop - s.start

/- A span that covers no byte. -/
def isEmpty (s : Span) : Bool :=
  s.start == s.stop

/- Whether `t` lies inside `s`. -/
def contains (s t : Span) : Bool :=
  s.start ≤ t.start && t.stop ≤ s.stop

/- The smallest span that covers both. -/
def merge (s t : Span) : Span :=
  { start := min s.start t.start
    stop := max s.stop t.stop }

/- A span is written as its two ends with dots between. -/
def text (s : Span) : String :=
  s!"{s.start}..{s.stop}"

end Span

end MatchCompiler

------------------------------------------------------------
-- Properties Of Spans
------------------------------------------------------------

namespace MatchCompiler

namespace Span

/- Merging does not depend on the order. -/
theorem merge_comm
    (s t : Span) :
    s.merge t = t.merge s := by
  simp only [merge, Nat.min_comm, Nat.max_comm]

/- Spans may be merged in any grouping. -/
theorem merge_assoc
    (s t u : Span) :
    (s.merge t).merge u = s.merge (t.merge u) := by
  simp only [merge, Nat.min_assoc, Nat.max_assoc]

/- A merged span covers its first part. -/
theorem contains_merge_left
    (s t : Span) :
    (s.merge t).contains s = true := by
  have hStart : min s.start t.start ≤ s.start :=
    Nat.min_le_left _ _
  have hStop : s.stop ≤ max s.stop t.stop :=
    Nat.le_max_left _ _
  simp [contains, merge, hStart, hStop]

/- A merged span covers its second part. -/
theorem contains_merge_right
    (s t : Span) :
    (s.merge t).contains t = true := by
  rw [merge_comm]
  exact contains_merge_left t s

end Span

end MatchCompiler
