import MatchCompiler.Proofs.SeqReading
import Mathlib.Data.Nat.PSub

/-
  This file shows that a resolution hands out every element
  of a sequence once and in order, and that the defaults
  which are taken are the leftmost ones.

  A resolution is found in two passes over the slots. The
  first goes from right to left and marks the slots that
  read, the second goes from left to right and hands out the
  places. The passes count in 32 bits and subtract without
  looking; the number of marks is what keeps every count in
  range.

  Key definitions include:
    * `SeqLayout.marks`
    * `SeqLayout.resolveInPasses`
    * `SeqLayout.placesRead`
    * `SeqLayout.HandsOut`

  Key theorems include:
    * `SeqLayout.map_isElement_of_resolve`
    * `SeqLayout.placesRead_of_resolve`
    * `SeqLayout.resolveInPasses_eq`
    * `SeqLayout.resolve_handsOut`
-/

------------------------------------------------------------
-- Slots That Read
------------------------------------------------------------

namespace MatchCompiler

namespace SeqLayout

/-
  Whether a slot reads an element: always without a default,
  else if `extra` reaches that far from the right. `ds` are
  the slots to its right, and `beyond` counts the slots with
  a default to the right of these.
-/
def reads
    (extra beyond : Nat)
    (d : Option Literal)
    (ds : List (Option Literal)) : Bool :=
  d.isNone || decide (ds.countP Option.isSome + beyond < extra)

/- Which slots read an element. -/
def marks
    (extra beyond : Nat) :
    List (Option Literal) → List Bool
| [] => []
| d :: ds => reads extra beyond d ds :: marks extra beyond ds

variable {extra beyond : Nat}
variable {d : Option Literal}
variable {ds : List (Option Literal)}

/- A slot that reads is handed the next element. -/
theorem assign_of_reads
    (h : reads extra beyond d ds = true)
    (next : Nat) :
    assign extra beyond next (d :: ds) =
      .element (.fromStart next) ::
        assign extra beyond (next + 1) ds := by
  cases d with
  | none => rfl
  | some value => rw [assign, if_pos (of_decide_eq_true h)]

/- Any other slot takes its default. -/
theorem assign_of_not_reads
    (h : reads extra beyond d ds = false)
    (next : Nat) :
    ∃ value, d = some value ∧
      assign extra beyond next (d :: ds) =
        .default value :: assign extra beyond next ds := by
  cases d with
  | none => cases h
  | some value =>
      refine ⟨value, rfl, ?_⟩
      rw [assign, if_neg (of_decide_eq_false h)]

theorem length_marks
    (extra beyond : Nat)
    (ds : List (Option Literal)) :
    (marks extra beyond ds).length = ds.length := by
  induction ds with
  | nil => rfl
  | cons d ds ih => rw [marks, List.length_cons, ih, List.length_cons]

/- The mark of a slot depends on the slots to its right only. -/
theorem marks_append
    (extra beyond : Nat)
    (front back : List (Option Literal)) :
    marks extra beyond (front ++ back) =
      marks extra (back.countP Option.isSome + beyond) front ++
        marks extra beyond back := by
  induction front with
  | nil => rfl
  | cons d ds ih =>
      simp only [List.cons_append, marks, reads, ih,
        List.countP_append, Nat.add_assoc]

theorem getElem?_marks
    {i : Nat}
    (h : ds[i]? = some d) :
    (marks extra beyond ds)[i]? =
      some (reads extra beyond d (ds.drop (i + 1))) := by
  induction ds generalizing i with
  | nil => cases h
  | cons e ds ih =>
      cases i with
      | zero =>
          cases h
          rfl
      | succ i => exact ih h

/- The slots that are handed an element are the marked ones. -/
theorem map_isElement_assign
    (extra beyond next : Nat)
    (ds : List (Option Literal)) :
    (assign extra beyond next ds).map SlotSource.isElement =
      marks extra beyond ds := by
  induction ds generalizing next with
  | nil => rfl
  | cons d ds ih =>
      cases hReads : reads extra beyond d ds with
      | true =>
          rw [assign_of_reads hReads, marks, hReads, List.map_cons, ih]
          rfl
      | false =>
          rcases assign_of_not_reads hReads next with
            ⟨value, -, hAssign⟩
          rw [hAssign, marks, hReads, List.map_cons, ih]
          rfl

/- As many slots are marked as the length allows. -/
theorem countP_marks
    (extra beyond : Nat)
    (ds : List (Option Literal)) :
    (marks extra beyond ds).countP id =
      ds.countP Option.isNone +
        min (ds.countP Option.isSome) (extra - beyond) := by
  rw [← map_isElement_assign extra beyond 0 ds, List.countP_map,
    Function.id_comp]
  exact countP_assign extra beyond 0 ds

/- Exactly the slots marked for a length read an element. -/
theorem map_isElement_of_resolve
    {l : SeqLayout}
    {n : Nat}
    {r : Resolution}
    (h : l.resolve n = some r) :
    r.slots.map SlotSource.isElement =
      marks (n - l.required) 0 l.defaults := by
  unfold resolve at h
  split at h
  · split at h
    · cases h
      exact map_isElement_assign _ _ _ _
    · rename_i place hSpread
      cases h
      rw [List.map_append, map_isElement_assign, map_isElement_assign,
        ← Nat.add_zero ((l.defaults.drop place).countP _),
        ← marks_append, List.take_append_drop]
  · cases h

end SeqLayout

end MatchCompiler

------------------------------------------------------------
-- Places That Are Handed Out
------------------------------------------------------------

namespace MatchCompiler

/- The place of the element that a slot reads. -/
def SlotSource.place?
    (n : Nat) : SlotSource → Option Nat
| .element (.fromStart i) => some i
| .element (.fromEnd i) => some (n - i)
| .default _ => none

namespace SeqLayout

/-
  The places that slots and spread read from a sequence of
  `n` elements, from the first slot to the last one, with
  the places of the spread where the spread stands.
-/
def placesRead
    (l : SeqLayout)
    (n : Nat)
    (r : Resolution) : List Nat :=
  let slots := r.slots.map (SlotSource.place? n)
  match l.spreadAt, r.spread with
  | some i, some range =>
      (slots.take i).reduceOption ++
        (List.range' range.start
          (n - range.endFromEnd - range.start)) ++
        (slots.drop i).reduceOption
  | _, _ => slots.reduceOption

/- Slots are handed the next places one after the other. -/
theorem reduceOption_assign
    (n extra beyond next : Nat)
    (ds : List (Option Literal)) :
    ((assign extra beyond next ds).map
        (SlotSource.place? n)).reduceOption =
      List.range' next ((marks extra beyond ds).countP id) := by
  induction ds generalizing next with
  | nil => rfl
  | cons d ds ih =>
      cases hReads : reads extra beyond d ds with
      | true =>
          rw [assign_of_reads hReads, marks, hReads,
            List.countP_cons_of_pos rfl, List.range'_succ, ← ih]
          rfl
      | false =>
          rcases assign_of_not_reads hReads next with
            ⟨value, -, hAssign⟩
          rw [hAssign, marks, hReads,
            List.countP_cons_of_neg Bool.false_ne_true, ← ih]
          rfl

/- Slots in front of the spread and behind it. -/
theorem countP_defaults
    (l : SeqLayout)
    (i : Nat)
    (p : Option Literal → Bool) :
    l.defaults.countP p =
      (l.defaults.take i).countP p + (l.defaults.drop i).countP p := by
  rw [← List.countP_append, List.take_append_drop]

/- What a length allows, in numbers. -/
theorem accepts_iff
    {l : SeqLayout}
    {n : Nat} :
    l.accepts n = true ↔
      l.required ≤ n ∧
        (l.spreadAt = none → n ≤ l.required + l.defaulted) := by
  unfold accepts minLength maxLength
  cases l.spreadAt with
  | none => simp
  | some i => simp

/- A stretch of numbers in three parts. -/
theorem range_eq_append
    {a b c d n : Nat}
    (hMiddle : b = d)
    (hSum : a + b + c = n) :
    List.range' 0 a ++ List.range' a b ++ List.range' (a + d) c =
      List.range n := by
  subst hMiddle hSum
  rw [List.append_assoc, List.range'_append_1]
  have hAll := List.range'_append_1 (s := 0) (m := a) (n := b + c)
  rw [Nat.zero_add] at hAll
  rw [hAll, Nat.add_assoc, List.range_eq_range']

/-
  The places of slots and spread are those of all elements,
  in order: nothing is lost and nothing is read twice.
-/
theorem placesRead_of_resolve
    {l : SeqLayout}
    {n : Nat}
    {r : Resolution}
    (h : l.resolve n = some r) :
    l.placesRead n r = List.range n := by
  have hAccepts := accepts_iff.mp (accepts_of_resolve h)
  have hRequired : l.defaults.countP Option.isNone = l.required := rfl
  have hDefaulted : l.defaults.countP Option.isSome = l.defaulted := rfl
  unfold resolve at h
  rw [if_pos (accepts_of_resolve h)] at h
  unfold placesRead
  cases hSpread : l.spreadAt with
  | none =>
      rw [hSpread] at h
      cases h
      have hMost := hAccepts.2 hSpread
      dsimp only
      rw [reduceOption_assign, countP_marks, List.range_eq_range']
      congr 1
      omega
  | some i =>
      rw [hSpread] at h
      cases h
      have hNone := l.countP_defaults i Option.isNone
      have hSome := l.countP_defaults i Option.isSome
      have hLength :
          ((assign (n - l.required)
            ((l.defaults.drop i).countP Option.isSome) 0
              (l.defaults.take i)).map
                (SlotSource.place? n)).length = i := by
        rw [List.length_map, length_assign, List.length_take]
        exact Nat.min_eq_left (l.spread_le i hSpread)
      dsimp only
      rw [List.map_append, List.take_left' hLength,
        List.drop_left' hLength, reduceOption_assign,
        reduceOption_assign, countP_assign, countP_marks,
        countP_marks]
      -- The slots behind the spread start where it ends.
      refine range_eq_append ?_ ?_
      · omega
      · omega

end SeqLayout

end MatchCompiler

------------------------------------------------------------
-- Two Passes In 32 Bits
------------------------------------------------------------

namespace MatchCompiler

/- The sum of two counts of 32 bits, if it is one. -/
def padd32 (a b : Nat) : Option Nat :=
  if a + b < 2 ^ 32 then some (a + b) else none

theorem padd32_eq
    {a b : Nat}
    (h : a + b < 2 ^ 32) :
    padd32 a b = some (a + b) :=
  if_pos h

/- A number of slots as a count of 32 bits. -/
def count32 (n : Nat) : Nat :=
  min n (2 ^ 32 - 1)

theorem count32_eq
    {n : Nat}
    (h : n < 2 ^ 32) :
    count32 n = n :=
  Nat.min_eq_left (by omega)

/- What has been handed out, and the next place. -/
structure Handing where
  next : Nat
  slots : List SlotSource
  spread : Option SpreadRange

namespace Handing

/- Hand the spread its range if it stands in front of a slot. -/
def spreadBefore
    (spreadAt : Option Nat)
    (length taken slot : Nat)
    (s : Handing) : Option Handing :=
  if spreadAt = some slot then do
    let behind ← length.psub s.next
    let endFromEnd ← behind.psub taken
    let next ← padd32 s.next taken
    some { s with next, spread := some ⟨s.next, endFromEnd⟩ }
  else
    some s

/- Hand a slot the next element or its default. -/
def slot
    (s : Handing) : Option Literal × Bool → Option Handing
| (some value, false) =>
    some { s with slots := s.slots ++ [.default value] }
| _ => do
    let next ← padd32 s.next 1
    some
      { s with
        next, slots := s.slots ++ [.element (.fromStart s.next)] }

/-
  The second pass: hand out places from left to right to the
  marked slots and to the spread.
-/
def run
    (spreadAt : Option Nat)
    (length taken : Nat) :
    Nat → List (Option Literal × Bool) → Handing → Option Handing
| i, [], s => s.spreadBefore spreadAt length taken i
| i, e :: es, s => do
    let s ← s.spreadBefore spreadAt length taken i
    run spreadAt length taken (i + 1) es (← s.slot e)

end Handing

namespace SeqLayout

/-
  The first pass: mark from right to left the slots that
  read, and return what is left of `extra`.
-/
def markReads
    (extra : Nat) :
    List (Option Literal) → Option (List Bool × Nat)
| [] => some ([], extra)
| none :: ds => do
    let (reads, left) ← markReads extra ds
    return (true :: reads, left)
| some _ :: ds => do
    let (reads, left) ← markReads extra ds
    if 0 < left then
      return (true :: reads, ← left.psub 1)
    else
      return (false :: reads, left)

/- Whether a length can match. -/
def accepts32
    (l : SeqLayout)
    (length : Nat) : Option Bool :=
  if length < count32 l.required then
    some false
  else
    match l.spreadAt with
    | some _ => some true
    | none => do
        let most ← padd32 (count32 l.required) (count32 l.defaulted)
        return decide (length ≤ most)

/-
  The resolution of a length in two passes. The outer result
  is `none` if a difference is negative or a sum does not
  fit 32 bits.
-/
def resolveInPasses
    (l : SeqLayout)
    (length : Nat) : Option (Option Resolution) := do
  if ← l.accepts32 length then
    let extra ← length.psub (count32 l.required)
    let (reads, left) ← markReads extra l.defaults
    let taken := if l.spreadAt.isSome then left else 0
    let s ←
      Handing.run l.spreadAt length taken 0 (l.defaults.zip reads)
        ⟨0, [], none⟩
    return some ⟨s.slots, s.spread⟩
  else
    return none

/- The counts of fewer than 2 ^ 32 slots. -/
theorem accepts32_eq
    {l : SeqLayout}
    (hSlots : l.slotCount < 2 ^ 32)
    (n : Nat) :
    l.accepts32 n = some (l.accepts n) := by
  have hAll := l.required_add_defaulted
  have hRequired : l.required < 2 ^ 32 := by omega
  have hDefaulted : l.defaulted < 2 ^ 32 := by omega
  have hSum : l.required + l.defaulted < 2 ^ 32 := by omega
  unfold accepts32 accepts minLength maxLength
  rw [count32_eq hRequired, count32_eq hDefaulted, padd32_eq hSum]
  by_cases hLess : n < l.required
  · rw [if_pos hLess, decide_eq_false (Nat.not_le_of_lt hLess)]
    rfl
  · rw [if_neg hLess, decide_eq_true (Nat.le_of_not_lt hLess)]
    cases l.spreadAt <;> rfl

/- The first pass marks the slots; no difference is negative. -/
theorem markReads_eq
    (extra : Nat)
    (ds : List (Option Literal)) :
    markReads extra ds =
      some (marks extra 0 ds, extra - ds.countP Option.isSome) := by
  induction ds with
  | nil => rfl
  | cons d ds ih =>
      cases d with
      | none =>
          rw [markReads, ih]
          rfl
      | some value =>
          rw [markReads, ih, marks, reads,
            List.countP_cons_of_pos rfl, Option.isNone_some,
            Bool.false_or, Nat.add_zero]
          dsimp only [Option.bind_eq_bind, Option.bind_some]
          by_cases hExtra : ds.countP Option.isSome < extra
          · have hLeft : 0 < extra - ds.countP Option.isSome :=
              Nat.sub_pos_of_lt hExtra
            rw [if_pos hLeft, Nat.psub_eq_sub hLeft,
              decide_eq_true hExtra]
            rfl
          · have hLeft : ¬ 0 < extra - ds.countP Option.isSome := by
              omega
            rw [if_neg hLeft, decide_eq_false hExtra]
            refine congrArg (fun left => some (_, left)) ?_
            omega

end SeqLayout

namespace Handing

variable {spreadAt : Option Nat}
variable {length taken i : Nat}
variable {s : Handing}

theorem spreadBefore_of_ne
    (h : spreadAt ≠ some i) :
    s.spreadBefore spreadAt length taken i = some s :=
  if_neg h

/-
  Where the spread stands, there are as many elements as it
  takes.
-/
theorem spreadBefore_self
    (hRoom : s.next + taken ≤ length)
    (hSize : length < 2 ^ 32) :
    s.spreadBefore (some i) length taken i =
      some
        { s with
          next := s.next + taken
          spread := some ⟨s.next, length - s.next - taken⟩ } := by
  have hBehind : s.next ≤ length := by omega
  have hTaken : taken ≤ length - s.next := by omega
  have hNext : s.next + taken < 2 ^ 32 := by omega
  rw [spreadBefore, if_pos rfl, Nat.psub_eq_sub hBehind]
  dsimp only [Option.bind_eq_bind, Option.bind_some]
  rw [Nat.psub_eq_sub hTaken, padd32_eq hNext]
  rfl

/- Behind the spread the pass goes on as if there were none. -/
theorem run_of_lt
    {es : List (Option Literal × Bool)}
    (h : ∀ k ∈ spreadAt, k < i) :
    run spreadAt length taken i es s =
      run none length taken i es s := by
  have hNe : spreadAt ≠ some i :=
    fun hEq => Nat.lt_irrefl i (h i hEq)
  induction es generalizing i s with
  | nil => exact spreadBefore_of_ne hNe
  | cons e es ih =>
      have hNext : ∀ k ∈ spreadAt, k < i + 1 :=
        fun k hk => Nat.lt_succ_of_lt (h k hk)
      have hNextNe : spreadAt ≠ some (i + 1) :=
        fun hEq => Nat.lt_irrefl _ (hNext _ hEq)
      rw [run, run, spreadBefore_of_ne hNe,
        spreadBefore_of_ne (Option.some_ne_none i).symm]
      exact congrArg (s.slot e).bind
        (funext fun s' => ih hNext hNextNe)

/- At its place the spread comes first. -/
theorem run_self
    (es : List (Option Literal × Bool)) :
    run (some i) length taken i es s =
      (s.spreadBefore (some i) length taken i).bind
        (run none length taken i es) := by
  cases es with
  | nil => exact (Option.bind_fun_some _).symm
  | cons e es =>
      rw [run]
      refine congrArg (Option.bind _) (funext fun s' => ?_)
      rw [run, spreadBefore_of_ne (Option.some_ne_none i).symm]
      exact congrArg (s'.slot e).bind
        (funext fun _ => run_of_lt fun k hk => by
          cases hk
          exact Nat.lt_succ_self i)

/- The slots in front of the spread come before it. -/
theorem run_append
    (length taken i : Nat)
    (s : Handing)
    (front back : List (Option Literal × Bool)) :
    run (some (i + front.length)) length taken i (front ++ back) s =
      (run none length taken i front s).bind
        (run (some (i + front.length)) length taken
          (i + front.length) back) := by
  induction front generalizing i s with
  | nil => rfl
  | cons e es ih =>
      have hPlace : i + (e :: es).length = i + 1 + es.length := by
        rw [List.length_cons]
        omega
      have hNe : some (i + 1 + es.length) ≠ some i := by
        intro hEq
        have := Option.some.inj hEq
        omega
      rw [hPlace, List.cons_append, run, run, spreadBefore_of_ne hNe,
        spreadBefore_of_ne (Option.some_ne_none i).symm]
      dsimp only [Option.bind_eq_bind, Option.bind_some]
      rw [Option.bind_assoc]
      exact congrArg (s.slot e).bind
        (funext fun s' => ih (i + 1) s')

/- A slot that reads is handed the next element. -/
theorem slot_true
    (hRoom : s.next + 1 < 2 ^ 32)
    (d : Option Literal) :
    s.slot (d, true) =
      some
        { s with
          next := s.next + 1
          slots := s.slots ++ [.element (.fromStart s.next)] } := by
  cases d <;> simp only [slot, padd32_eq hRoom] <;> rfl

/- Without a spread the marked slots are handed the next places. -/
theorem run_none
    {extra beyond : Nat}
    {ds : List (Option Literal)}
    (hRoom :
      s.next + (SeqLayout.marks extra beyond ds).countP id <
        2 ^ 32) :
    run none length taken i
        (ds.zip (SeqLayout.marks extra beyond ds)) s =
      some
        { s with
          next :=
            s.next + (SeqLayout.marks extra beyond ds).countP id
          slots :=
            s.slots ++ SeqLayout.assign extra beyond s.next ds } := by
  induction ds generalizing i s with
  | nil => simp [run, spreadBefore, SeqLayout.marks, SeqLayout.assign]
  | cons d ds ih =>
      rw [SeqLayout.marks] at hRoom ⊢
      rw [List.zip_cons_cons, run,
        spreadBefore_of_ne (Option.some_ne_none i).symm]
      dsimp only [Option.bind_eq_bind, Option.bind_some]
      cases hReads : SeqLayout.reads extra beyond d ds with
      | true =>
          rw [hReads, List.countP_cons_of_pos rfl] at hRoom
          have hNext : s.next + 1 < 2 ^ 32 := by omega
          rw [List.countP_cons_of_pos rfl, slot_true hNext,
            Option.bind_some, ih (by dsimp only; omega),
            SeqLayout.assign_of_reads hReads]
          dsimp only
          rw [List.append_assoc, List.singleton_append]
          congr 2
          omega
      | false =>
          rw [hReads, List.countP_cons_of_neg Bool.false_ne_true] at hRoom
          rcases SeqLayout.assign_of_not_reads hReads s.next with
            ⟨value, rfl, hAssign⟩
          rw [List.countP_cons_of_neg Bool.false_ne_true, hAssign]
          dsimp only [slot, Option.bind_some]
          rw [ih (by exact hRoom), List.append_assoc,
            List.singleton_append]

/- The slots in front of a spread, the spread, and the rest. -/
theorem run_spread
    {length extra start behind : Nat}
    {front back : List (Option Literal)}
    (taken : Nat)
    (hStart :
      (SeqLayout.marks extra (back.countP Option.isSome) front).countP
        id = start)
    (hBehind : (SeqLayout.marks extra 0 back).countP id = behind)
    (hRoom : start + taken + behind ≤ length)
    (hSize : length < 2 ^ 32) :
    run (some front.length) length taken 0
        ((front ++ back).zip
          (SeqLayout.marks extra 0 (front ++ back)))
        ⟨0, [], none⟩ =
      some
        { next := start + taken + behind
          slots :=
            SeqLayout.assign extra (back.countP Option.isSome) 0
                front ++
              SeqLayout.assign extra 0 (start + taken) back
          spread := some ⟨start, length - start - taken⟩ } := by
  subst hStart hBehind
  have hSplit := run_append length taken 0 ⟨0, [], none⟩
    (front.zip
      (SeqLayout.marks extra (back.countP Option.isSome) front))
    (back.zip (SeqLayout.marks extra 0 back))
  rw [List.length_zip, SeqLayout.length_marks, Nat.min_self,
    Nat.zero_add] at hSplit
  rw [SeqLayout.marks_append, Nat.add_zero,
    List.zip_append (SeqLayout.length_marks _ _ _).symm, hSplit,
    run_none (by dsimp only; omega), Option.bind_some, run_self,
    spreadBefore_self (by dsimp only; omega) hSize,
    Option.bind_some, run_none (by dsimp only; omega)]
  simp only [List.nil_append, Nat.zero_add]

end Handing

end MatchCompiler

------------------------------------------------------------
-- Resolutions
------------------------------------------------------------

namespace MatchCompiler

namespace SeqLayout

/-
  Neither pass leaves the range of its numbers, and together
  they find the resolution.
-/
theorem resolveInPasses_eq
    {l : SeqLayout}
    {n : Nat}
    (hSlots : l.slotCount < 2 ^ 32)
    (hLength : n < 2 ^ 32) :
    l.resolveInPasses n = some (l.resolve n) := by
  have hAll := l.required_add_defaulted
  unfold resolveInPasses resolve
  rw [accepts32_eq hSlots]
  dsimp only [Option.bind_eq_bind, Option.bind_some]
  by_cases hAccepts : l.accepts n = true
  · rw [if_pos hAccepts, if_pos hAccepts]
    have hNumbers := accepts_iff.mp hAccepts
    have hRequired : l.defaults.countP Option.isNone = l.required :=
      rfl
    have hDefaulted : l.defaults.countP Option.isSome = l.defaulted :=
      rfl
    rw [count32_eq (by omega), Nat.psub_eq_sub hNumbers.1]
    dsimp only [Option.bind_eq_bind, Option.bind_some]
    rw [markReads_eq]
    dsimp only [Option.bind_eq_bind, Option.bind_some]
    cases hSpread : l.spreadAt with
    | none =>
        have hMost := hNumbers.2 hSpread
        have hRoom :
            0 + (marks (n - l.required) 0 l.defaults).countP id <
              2 ^ 32 := by
          rw [countP_marks]
          omega
        rw [Handing.run_none (s := ⟨0, [], none⟩) hRoom]
        rfl
    | some place =>
        have hNone := l.countP_defaults place Option.isNone
        have hSome := l.countP_defaults place Option.isSome
        have hStart :=
          countP_marks (n - l.required)
            ((l.defaults.drop place).countP Option.isSome)
            (l.defaults.take place)
        have hBehind :=
          countP_marks (n - l.required) 0 (l.defaults.drop place)
        have hRun := Handing.run_spread
          (n - l.required - l.defaulted) hStart hBehind
          (by omega) hLength
        rw [List.take_append_drop, List.length_take,
          Nat.min_eq_left (l.spread_le place hSpread)] at hRun
        dsimp only [Option.isSome_some, if_true]
        rw [if_pos rfl, hDefaulted, hRun, countP_assign]
        rfl
  · rw [if_neg hAccepts, if_neg hAccepts]
    rfl

/- A default that is taken is that of the slot itself. -/
theorem getElem?_of_default_assign
    {extra beyond next i : Nat}
    {ds : List (Option Literal)}
    {value : Literal}
    (h : (assign extra beyond next ds)[i]? = some (.default value)) :
    ds[i]? = some (some value) := by
  induction ds generalizing next i with
  | nil => cases h
  | cons d ds ih =>
      cases hReads : reads extra beyond d ds with
      | true =>
          rw [assign_of_reads hReads] at h
          cases i with
          | zero => cases h
          | succ i => exact ih h
      | false =>
          rcases assign_of_not_reads hReads next with
            ⟨own, rfl, hAssign⟩
          rw [hAssign] at h
          cases i with
          | zero =>
              cases h
              rfl
          | succ i => exact ih h

theorem getElem?_of_default_resolve
    {l : SeqLayout}
    {n : Nat}
    {r : Resolution}
    (hResolve : l.resolve n = some r)
    {i : Nat}
    {value : Literal}
    (h : r.slots[i]? = some (.default value)) :
    l.defaults[i]? = some (some value) := by
  unfold resolve at hResolve
  split at hResolve
  · split at hResolve
    · cases hResolve
      exact getElem?_of_default_assign h
    · rename_i place hSpread
      cases hResolve
      rw [← List.take_append_drop place l.defaults]
      rw [List.getElem?_append, length_assign] at h
      rw [List.getElem?_append]
      split at h
      · rename_i hFront
        rw [if_pos hFront]
        exact getElem?_of_default_assign h
      · rename_i hBack
        rw [if_neg hBack]
        exact getElem?_of_default_assign h
  · cases hResolve

/- What a slot reads is decided by the slots to its right. -/
theorem isElement_of_resolve
    {l : SeqLayout}
    {n : Nat}
    {r : Resolution}
    (hResolve : l.resolve n = some r)
    {i : Nat}
    {d : Option Literal}
    (h : l.defaults[i]? = some d) :
    ∃ source, r.slots[i]? = some source ∧
      source.isElement =
        reads (n - l.required) 0 d (l.defaults.drop (i + 1)) := by
  have hMark := congrArg (fun marks => marks[i]?)
    (map_isElement_of_resolve hResolve)
  rw [getElem?_marks h, List.getElem?_map] at hMark
  exact Option.map_eq_some_iff.mp hMark

/-
  What a resolution for `n` elements says of slots, spread,
  elements and defaults.
-/
structure HandsOut
    (l : SeqLayout)
    (n : Nat)
    (r : Resolution) : Prop where
  /- Every slot has one source. -/
  length_slots : r.slots.length = l.slotCount
  isSome_spread : r.spread.isSome = l.spreadAt.isSome
  spread_le : ∀ range ∈ r.spread, range.start + range.endFromEnd ≤ n
  /- All elements are read, in order and once. -/
  placesRead_eq : l.placesRead n r = List.range n
  /- Defaults make up for the elements that are missing. -/
  countP_default :
    r.slots.countP (fun source => !source.isElement) =
      l.saturatedLength - n
  own_default :
    ∀ (i : Nat) (value : Literal),
      r.slots[i]? = some (.default value) →
      l.defaults[i]? = some (some value)
  required :
    ∀ i : Nat, l.defaults[i]? = some none →
      ∃ k < n, r.slots[i]? = some (.element (.fromStart k))
  /-
    A slot to the left of one that takes its default takes
    its own.
  -/
  rightmost :
    ∀ (i j : Nat) (taken value : Literal), i < j →
      r.slots[j]? = some (.default taken) →
      l.defaults[i]? = some (some value) →
      r.slots[i]? = some (.default value)

theorem spread_le_of_resolve
    {l : SeqLayout}
    {n : Nat}
    {r : Resolution}
    (h : l.resolve n = some r) :
    ∀ range ∈ r.spread, range.start + range.endFromEnd ≤ n := by
  have hNumbers := accepts_iff.mp (accepts_of_resolve h)
  have hRequired : l.defaults.countP Option.isNone = l.required := rfl
  unfold resolve at h
  rw [if_pos (accepts_of_resolve h)] at h
  cases hSpread : l.spreadAt with
  | none =>
      rw [hSpread] at h
      cases h
      rintro range ⟨⟩
  | some i =>
      rw [hSpread] at h
      cases h
      rintro range ⟨⟩
      have hNone := l.countP_defaults i Option.isNone
      have hSome := l.countP_defaults i Option.isSome
      dsimp only
      rw [countP_assign]
      omega

/- As many defaults are taken as elements are missing. -/
theorem countP_default_of_resolve
    {l : SeqLayout}
    {n : Nat}
    {r : Resolution}
    (h : l.resolve n = some r) :
    r.slots.countP (fun source => !source.isElement) =
      l.saturatedLength - n := by
  have hNumbers := accepts_iff.mp (accepts_of_resolve h)
  have hAll := l.required_add_defaulted
  have hSlots := length_slots_of_resolve h
  have hSplit :=
    List.length_eq_countP_add_countP SlotSource.isElement (l := r.slots)
  have hMarked :
      r.slots.countP SlotSource.isElement =
        l.required + min l.defaulted (n - l.required) := by
    have hCount := countP_marks (n - l.required) 0 l.defaults
    rw [← map_isElement_of_resolve h, List.countP_map,
      Function.id_comp] at hCount
    exact hCount
  have hOthers :
      r.slots.countP (fun source => !source.isElement) =
        r.slots.countP (fun source => ¬ source.isElement = true) :=
    List.countP_congr fun source _ => by simp
  unfold saturatedLength
  omega

/-
  The slots that read are the rightmost ones of those with a
  default.
-/
theorem rightmost_of_resolve
    {l : SeqLayout}
    {n : Nat}
    {r : Resolution}
    (hResolve : l.resolve n = some r)
    {i j : Nat}
    {taken value : Literal}
    (hLess : i < j)
    (hTaken : r.slots[j]? = some (.default taken))
    (h : l.defaults[i]? = some (some value)) :
    r.slots[i]? = some (.default value) := by
  have hOwn := getElem?_of_default_resolve hResolve hTaken
  rcases isElement_of_resolve hResolve hOwn with
    ⟨source, hSource, hReads⟩
  rw [hTaken] at hSource
  cases hSource
  have hFew := of_decide_eq_false hReads.symm
  have hMore :
      (l.defaults.drop (j + 1)).countP Option.isSome ≤
        (l.defaults.drop (i + 1)).countP Option.isSome :=
    (List.drop_sublist_drop_left l.defaults (by omega)).countP_le
  rcases isElement_of_resolve hResolve h with
    ⟨source, hSource, hHere⟩
  cases source with
  | element place =>
      have hMany := of_decide_eq_true hHere.symm
      omega
  | default own =>
      rw [getElem?_of_default_resolve hResolve hSource] at h
      cases h
      exact hSource

/-
  Exactly the lengths that can match have a resolution, the
  two passes find it without leaving the range of their
  numbers, and it hands out every element once, in order and
  with the defaults on the left.
-/
theorem resolve_handsOut
    (l : SeqLayout)
    (hSlots : l.slotCount < 2 ^ 32)
    (n : Nat)
    (hLength : n < 2 ^ 32) :
    (l.resolve n).isSome = l.accepts n ∧
    l.resolveInPasses n = some (l.resolve n) ∧
    ∀ r, l.resolve n = some r → l.HandsOut n r := by
  refine ⟨l.isSome_resolve n, resolveInPasses_eq hSlots hLength,
    fun r h => ?_⟩
  refine
    { length_slots := length_slots_of_resolve h
      isSome_spread := isSome_spread_of_resolve h
      spread_le := spread_le_of_resolve h
      placesRead_eq := placesRead_of_resolve h
      countP_default := countP_default_of_resolve h
      own_default := fun i value => getElem?_of_default_resolve h
      required := fun i hNone => ?_
      rightmost := fun i j taken value => rightmost_of_resolve h }
  rcases isElement_of_resolve h hNone with ⟨source, hSource, hReads⟩
  cases source with
  | element place =>
      rcases lt_of_mem_resolve h (List.mem_of_getElem? hSource) with
        ⟨k, hLess, rfl⟩
      exact ⟨k, hLess, hSource⟩
  | default value => cases hReads

/-
  Two elements for three slots and a spread: the last slot
  reads, the one in front of the spread takes its default.
-/
theorem resolve_handsOut_pair :
    let l : SeqLayout :=
      { defaults := [none, some (.bool true), some (.bool false)]
        spreadAt := some 2
        spread_le := by decide }
    l.resolve 2 =
        some
          { slots :=
              [.element (.fromStart 0), .default (.bool true),
                .element (.fromStart 1)]
            spread := some ⟨1, 1⟩ } ∧
    l.resolveInPasses 2 = some (l.resolve 2) ∧
    ∀ r, l.resolve 2 = some r → l.HandsOut 2 r :=
  ⟨by decide, (resolve_handsOut _ (by decide) 2 (by decide)).2⟩

end SeqLayout

end MatchCompiler
