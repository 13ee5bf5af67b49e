import Mathlib.Data.Nat.Bitwise
import Mathlib.Logic.Relation
import MatchCompiler.Proofs.SeqReading
import MatchCompiler.Proofs.Simulation

/-
  This file matches values against checked patterns without
  compiling them, and shows that compiled clauses do the same.

  Matching a value directly looks at the value itself: a name
  is bound to it, an alternation takes its first branch that
  matches, and a sequence is read as the resolution of its
  own length says. Where direct matching does not fault, the
  clause of an accepted arm gives the same verdict and binds
  the same names to the same values, as long as the sets that
  are compared by the names of their members would give the
  same verdict by number.

  Key definitions include:
    * `SetPattern.holds`
    * `Checked.matchAt`
    * `CheckedArm.matchDirectly`
    * `Checked.Meets`
    * `SetPattern.NamedAsNumbered`

  Key theorems include:
    * `Checked.Regular.tracked`
    * `CheckedArm.AcceptedFrom.asSaidBy_matchDirectly`
    * `clauseRun_asSaidBy_matchDirectly`
-/

------------------------------------------------------------
-- Questions Of Single Nodes
------------------------------------------------------------

namespace MatchCompiler

/- Whether a value is what a literal means. -/
def CheckedLiteral.holds
    (v : Value) : CheckedLiteral → Except ShapeMismatch Bool
| .value l => return v.equals l
| .member m => return (← v.readOrdinal) == m.ordinal
| .nil => return v.isNil
| .none => return !(← v.readPresence)

/- Whether the discriminator of an object has a pinned label. -/
def Pin.holds
    (p : Pin)
    (v : Value) : Except ShapeMismatch Bool := do
  let n ← (← v.readField p.discriminator).readOrdinal
  return p.labels.any (fun l => l.ordinal == n)

/-
  Whether an object has the asked type, is not nil where that
  is excluded, and is in a pinned branch; asked in this order.
-/
def ObjectHead.holds
    (h : ObjectHead)
    (v : Value) : Except ShapeMismatch Bool :=
  if h.runtimeType.any (fun name => !v.isOfType name) then
    return false
  else if h.nilCheck && v.isNil then
    return false
  else
    match h.pin with
    | some pin => pin.holds v
    | none => return true

/- The number of an item of a set with some numbered values. -/
def Value.numberBelow
    (domain : Nat)
    (v : Value) : Except ShapeMismatch Nat :=
  match v.ordinal? with
  | Option.some n =>
      if 0 ≤ n && n < domain then
        .ok n.toNat
      else
        .error .outsideDomain
  | Option.none => .error .outsideDomain

namespace SetPattern

/- The size of the domain and the numbers of all members. -/
def numbers? (p : SetPattern) : Option (Nat × List Nat) := do
  return (← p.domain, ← p.members.mapM SetMember.ordinal)

/-
  Whether a set with items of some numbers has all members
  and, if the comparison is exact, nothing else.
-/
def holdsByNumber
    (p : SetPattern)
    (members items : List Nat) : Bool :=
  members.all items.contains && (!p.exact || items.all members.contains)

/-
  Whether a set has the members of a pattern. Members are
  compared by number if all of them are numbered.
-/
def holds
    (p : SetPattern)
    (v : Value) : Except ShapeMismatch Bool := do
  let items ← v.readSet
  match p.numbers? with
  | some (domain, members) =>
      return p.holdsByNumber members
        (← items.mapM (Value.numberBelow domain))
  | none =>
      return Value.setContains (p.members.map SetMember.literal)
        p.exact items

end SetPattern

end MatchCompiler

------------------------------------------------------------
-- Direct Matching
------------------------------------------------------------

namespace MatchCompiler

/- Go on with the bindings of a match. -/
def MatchResult.andThen
    (r : MatchResult)
    (next : ValueBindings → MatchResult) : MatchResult :=
  match r with
  | .ok (some env) => next env
  | .ok none => .ok none
  | .error cause => .error cause

namespace Checked

mutual

/-
  Match a value when some names are bound already; `inside`
  says whether an alternation is around. A guard is asked
  right after what it guards if it is inside an alternation,
  and is left to the end of the arm otherwise.
-/
def matchAt
    (answer : GuardId → ValueBindings → Bool)
    (inside : Bool) : Checked → Value → ValueBindings → MatchResult
| .wildcard _ => fun _ env => .ok (Option.some env)
| .bind _ x inner => fun v env =>
    (inner.matchAt answer inside v env).andThen fun env =>
      .ok (Option.some ((x, v) :: env))
| .literal _ l => fun v env =>
    (l.holds v).map (ValueBindings.keepIf env)
| .alt _ branches => matchFirst answer branches
| .guarded _ inner id => fun v env =>
    if inside then
      (inner.matchAt answer inside v env).andThen fun env =>
        .ok (ValueBindings.keepIf env (answer id env))
    else
      inner.matchAt answer inside v env
| .object _ head fields => fun v env => do
    if ← head.holds v then
      matchFields answer inside fields v env
    else
      return Option.none
| .some _ inner => fun v env => do
    if ← v.readPresence then
      inner.matchAt answer inside (← v.readPayload) env
    else
      return Option.none
| .tuple _ items => matchTuple answer inside items
| .seq _ layout _ items spread => fun v env => do
    match layout.resolve (← v.readLength) with
    | Option.none => return Option.none
    | Option.some r =>
        (matchSlots answer inside items r.slots v env).andThen
          (matchSpread answer inside spread r.spread v)
| .map _ entries => matchEntries answer inside entries
| .set _ p => fun v env => (p.holds v).map (ValueBindings.keepIf env)
| .typeIs _ _ name => fun v env =>
    .ok (ValueBindings.keepIf env (v.isOfType name))
termination_by structural p => p

/- The first branch of an alternation that matches. -/
def matchFirst
    (answer : GuardId → ValueBindings → Bool) :
    List Checked → Value → ValueBindings → MatchResult
| [] => fun _ _ => .ok Option.none
| p :: ps => fun v env => do
    match ← p.matchAt answer true v env with
    | Option.some env' => return Option.some env'
    | Option.none => matchFirst answer ps v env
termination_by structural ps => ps

/- The fields of an object in order. -/
def matchFields
    (answer : GuardId → ValueBindings → Bool)
    (inside : Bool) :
    List (FieldRead × Checked) → Value → ValueBindings → MatchResult
| [] => fun _ env => .ok (Option.some env)
| (f, p) :: fs => fun v env => do
    let w ← v.readField f.name
    (p.matchAt answer inside w env).andThen
      (matchFields answer inside fs v)
termination_by structural fs => fs

/- The items of a tuple in order. -/
def matchTuple
    (answer : GuardId → ValueBindings → Bool)
    (inside : Bool) :
    List (Nat × Checked) → Value → ValueBindings → MatchResult
| [] => fun _ env => .ok (Option.some env)
| (i, p) :: items => fun v env => do
    let w ← v.readItem (.fromStart i)
    (p.matchAt answer inside w env).andThen
      (matchTuple answer inside items v)
termination_by structural items => items

/- The slots of a sequence in order, each from its source. -/
def matchSlots
    (answer : GuardId → ValueBindings → Bool)
    (inside : Bool) :
    List Checked → List SlotSource → Value → ValueBindings →
    MatchResult
| [] => fun _ _ env => .ok (Option.some env)
| p :: ps => fun sources v env =>
    match sources with
    | [] => .ok (Option.some env)
    | source :: sources => do
        let w ← v.readSlot source
        (p.matchAt answer inside w env).andThen
          (matchSlots answer inside ps sources v)
termination_by structural ps => ps

/- The spread of a sequence, if it has a pattern. -/
def matchSpread
    (answer : GuardId → ValueBindings → Bool)
    (inside : Bool) :
    Option Checked → Option SpreadRange → Value → ValueBindings →
    MatchResult
| Option.none => fun _ _ env => .ok (Option.some env)
| Option.some p => fun range v env =>
    match range with
    | Option.none => .ok (Option.some env)
    | Option.some range => do
        p.matchAt answer inside (← v.readSlice range) env
termination_by structural spread => spread

/- The entries of a map: the key is there and its value matches. -/
def matchEntries
    (answer : GuardId → ValueBindings → Bool)
    (inside : Bool) :
    List (Literal × Checked) → Value → ValueBindings → MatchResult
| [] => fun _ env => .ok (Option.some env)
| (key, p) :: es => fun v env => do
    if ← v.hasKey key then
      let w ← v.readKey key
      (p.matchAt answer inside w env).andThen
        (matchEntries answer inside es v)
    else
      return Option.none
termination_by structural es => es

end

end Checked

namespace CheckedArm

/- Guards that are asked one after the other. -/
def askInTurn
    (answer : GuardId → ValueBindings → Bool)
    (guards : List GuardId)
    (env : ValueBindings) : MatchResult :=
  .ok (ValueBindings.keepIf env (guards.all (fun id => answer id env)))

/-
  Match a value against an arm: its pattern, then the guards
  outside of alternations.
-/
def matchDirectly
    (answer : GuardId → ValueBindings → Bool)
    (arm : CheckedArm)
    (root : Value) : MatchResult :=
  (arm.pattern.matchAt answer false root []).andThen
    (askInTurn answer arm.pattern.outerGuards)

end CheckedArm

end MatchCompiler

------------------------------------------------------------
-- Parts That Are Met
------------------------------------------------------------

namespace MatchCompiler

namespace Checked

/-
  Matching a pattern with a value leads to matching a part of
  the pattern with a part of the value.
-/
inductive Part : Checked × Value → Checked × Value → Prop
| bind
    (s : Span)
    (x : String)
    (p : Checked)
    (v : Value) :
    Part (.bind s x p, v) (p, v)
| alt
    (s : Span)
    {ps : List Checked}
    {p : Checked}
    (hMem : p ∈ ps)
    (v : Value) :
    Part (.alt s ps, v) (p, v)
| guarded
    (s : Span)
    (p : Checked)
    (id : GuardId)
    (v : Value) :
    Part (.guarded s p id, v) (p, v)
| field
    (s : Span)
    (head : ObjectHead)
    {fs : List (FieldRead × Checked)}
    {f : FieldRead × Checked}
    {v w : Value}
    (hMem : f ∈ fs)
    (hRead : v.readField f.1.name = .ok w) :
    Part (.object s head fs, v) (f.2, w)
| payload
    (s : Span)
    (p : Checked)
    {v w : Value}
    (hRead : v.readPayload = .ok w) :
    Part (.some s p, v) (p, w)
| item
    (s : Span)
    {items : List (Nat × Checked)}
    {i : Nat × Checked}
    {v w : Value}
    (hMem : i ∈ items)
    (hRead : v.readItem (.fromStart i.1) = .ok w) :
    Part (.tuple s items, v) (i.2, w)
| slot
    (s : Span)
    {l : SeqLayout}
    (fixed : Option Nat)
    {items : List Checked}
    (spread : Option Checked)
    {r : Resolution}
    {p : Checked}
    {source : SlotSource}
    {n : Nat}
    {v w : Value}
    (hLength : v.readLength = .ok n)
    (hResolve : l.resolve n = Option.some r)
    (hMem : (p, source) ∈ items.zip r.slots)
    (hRead : v.readSlot source = .ok w) :
    Part (.seq s l fixed items spread, v) (p, w)
| spread
    (s : Span)
    {l : SeqLayout}
    (fixed : Option Nat)
    (items : List Checked)
    (p : Checked)
    {r : Resolution}
    {range : SpreadRange}
    {n : Nat}
    {v w : Value}
    (hLength : v.readLength = .ok n)
    (hResolve : l.resolve n = Option.some r)
    (hRange : r.spread = Option.some range)
    (hRead : v.readSlice range = .ok w) :
    Part (.seq s l fixed items (Option.some p), v) (p, w)
| entry
    (s : Span)
    {es : List (Literal × Checked)}
    {e : Literal × Checked}
    {v w : Value}
    (hMem : e ∈ es)
    (hRead : v.readKey e.1 = .ok w) :
    Part (.map s es, v) (e.2, w)

/-
  Matching a pattern with a value can lead to matching a
  pattern with a value.
-/
def Meets : Checked × Value → Checked × Value → Prop :=
  Relation.ReflTransGen Part

/-
  What holds of a pattern at a value, and of all that its
  parts lead to, holds of all that it leads to.
-/
theorem forall_of_meets
    {P : Checked × Value → Prop}
    {e : Checked × Value}
    (hHere : P e)
    (hParts : ∀ e', Part e e' → ∀ e'', Meets e' e'' → P e'') :
    ∀ e', Meets e e' → P e' := by
  intro e' hMeets
  rcases Relation.ReflTransGen.cases_head hMeets with
    rfl | ⟨e₁, hPart, hRest⟩
  · exact hHere
  · exact hParts e₁ hPart e' hRest

end Checked

end MatchCompiler

------------------------------------------------------------
-- Plans That Follow Direct Matching
------------------------------------------------------------

namespace MatchCompiler

/- A step that answers has one that answers before it. -/
theorem exists_of_bind_eq_ok
    {ε α β : Type}
    {m : Except ε α}
    {f : α → Except ε β}
    {y : β}
    (h : (m >>= f) = .ok y) :
    ∃ x, m = .ok x ∧ f x = .ok y := by
  cases m with
  | error e => cases h
  | ok x => exact ⟨x, rfl, h⟩

namespace Plan

/-
  Where a direct match does not fault, every result of the
  plan is that of the direct match.
-/
def Follows
    (can : GuardAnswers)
    (root : Value)
    (p : Plan)
    (env : ValueBindings)
    (direct : MatchResult) : Prop :=
  ∀ found, direct = .ok found →
    ∀ r, p.Yields can root env r → r = .ok found

/- The same for several parts in order. -/
def FollowInTurn
    (can : GuardAnswers)
    (root : Value)
    (ps : List Plan)
    (env : ValueBindings)
    (direct : MatchResult) : Prop :=
  ∀ found, direct = .ok found →
    ∀ r, YieldsInTurn can root ps env r → r = .ok found

variable {can : GuardAnswers}
variable {root : Value}

/- A test gives its reading. -/
theorem follows_leaf
    {t : Test}
    (hLeaf : t.IsLeaf)
    {answer : Except ShapeMismatch Bool}
    (hReading : t.reading root .empty = answer)
    (env : ValueBindings) :
    (Plan.test t).Follows can root env
      (answer.map (ValueBindings.keepIf env)) := by
  intro found hFound r hYields
  rw [(yields_leaf hLeaf env r).mp hYields, hReading, hFound]

theorem followInTurn_nil
    (env : ValueBindings) :
    FollowInTurn can root [] env (.ok (some env)) := by
  intro found hFound r hYields
  rw [← hFound]
  exact hYields

/- One part after another. -/
theorem Follows.cons
    {p : Plan}
    {ps : List Plan}
    {env : ValueBindings}
    {first : MatchResult}
    {next : ValueBindings → MatchResult}
    (hHead : p.Follows can root env first)
    (hTail : ∀ env', FollowInTurn can root ps env' (next env')) :
    FollowInTurn can root (p :: ps) env (first.andThen next) := by
  intro found hFound r hYields
  rcases first with cause | _ | env'
  · cases hFound
  · cases hFound
    rcases hYields with ⟨env', hHere, -⟩ | ⟨-, hHere⟩
    · cases hHead _ rfl _ hHere
    · exact hHead _ rfl _ hHere
  · rcases hYields with ⟨env'', hHere, hRest⟩ | ⟨hNe, hHere⟩
    · cases hHead _ rfl _ hHere
      exact hTail env' found hFound r hRest
    · exact absurd (hHead _ rfl _ hHere) (hNe env')

/-
  A run of two groups of parts is a run of the first, and
  then of the second if that matches.
-/
theorem YieldsInTurn.split
    {ps qs : List Plan}
    {env : ValueBindings}
    {r : MatchResult}
    (h : YieldsInTurn can root (ps ++ qs) env r) :
    (∃ env', YieldsInTurn can root ps env (.ok (some env')) ∧
      YieldsInTurn can root qs env' r) ∨
    ((∀ env', r ≠ .ok (some env')) ∧ YieldsInTurn can root ps env r) := by
  induction ps generalizing env with
  | nil => exact .inl ⟨env, rfl, h⟩
  | cons p ps ih =>
      rcases h with ⟨env₁, hHere, hRest⟩ | ⟨hNe, hHere⟩
      · rcases ih hRest with ⟨env', hFirst, hSecond⟩ | ⟨hNe, hFirst⟩
        · exact .inl ⟨env', .inl ⟨env₁, hHere, hFirst⟩, hSecond⟩
        · exact .inr ⟨hNe, .inl ⟨env₁, hHere, hFirst⟩⟩
      · exact .inr ⟨hNe, .inr ⟨hNe, hHere⟩⟩

/- Parts in two groups. -/
theorem FollowInTurn.append
    {ps qs : List Plan}
    {env : ValueBindings}
    {first : MatchResult}
    {next : ValueBindings → MatchResult}
    (hFirst : FollowInTurn can root ps env first)
    (hNext : ∀ env', FollowInTurn can root qs env' (next env')) :
    FollowInTurn can root (ps ++ qs) env (first.andThen next) := by
  intro found hFound r hYields
  rcases first with cause | _ | env'
  · cases hFound
  · cases hFound
    rcases hYields.split with ⟨env', hHere, -⟩ | ⟨-, hHere⟩
    · cases hFirst _ rfl _ hHere
    · exact hFirst _ rfl _ hHere
  · rcases hYields.split with
      ⟨env'', hHere, hRest⟩ | ⟨hNe, hHere⟩
    · cases hFirst _ rfl _ hHere
      exact hNext env' found hFound r hRest
    · exact absurd (hFirst _ rfl _ hHere) (hNe env')

/- One part alone. -/
theorem Follows.single
    {p : Plan}
    {env : ValueBindings}
    {direct : MatchResult}
    (h : p.Follows can root env direct) :
    FollowInTurn can root [p] env direct := by
  have hBoth := h.cons (fun env' => followInTurn_nil env')
  have hSame :
      direct.andThen (fun env' => .ok (some env')) = direct := by
    rcases direct with cause | _ | env' <;> rfl
  rw [hSame] at hBoth
  exact hBoth

/- A direct match that faults more often. -/
theorem FollowInTurn.mono
    {ps : List Plan}
    {env : ValueBindings}
    {direct direct' : MatchResult}
    (h : FollowInTurn can root ps env direct)
    (hMono : ∀ found, direct' = .ok found → direct = .ok found) :
    FollowInTurn can root ps env direct' :=
  fun found hFound => h found (hMono found hFound)

/- A name is bound to the value of its access. -/
theorem Follows.bind
    {p : Plan}
    {env : ValueBindings}
    {direct : MatchResult}
    (h : p.Follows can root env direct)
    (x : String)
    {a : Access}
    {v : Value}
    (hRead : a.resolve root .empty = .ok v) :
    (Plan.bind x a p).Follows can root env
      (direct.andThen fun env => .ok (some ((x, v) :: env))) := by
  intro found hFound r hYields
  rcases direct with cause | _ | env'
  · cases hFound
  · cases hFound
    rcases hYields with ⟨env', hHere, -⟩ | ⟨-, hHere⟩
    · cases h _ rfl _ hHere
    · exact h _ rfl _ hHere
  · cases hFound
    rcases hYields with ⟨env'', hHere, hEq⟩ | ⟨hNe, hHere⟩
    · cases h _ rfl _ hHere
      rw [hEq, hRead]
      rfl
    · exact absurd (h _ rfl _ hHere) (hNe env')

end Plan

end MatchCompiler

------------------------------------------------------------
-- Masks
------------------------------------------------------------

namespace MatchCompiler

/- A mask of one number has one bit. -/
theorem testBit_one_shiftLeft
    (n i : Nat) :
    (1 <<< n).testBit i = (i == n) := by
  rw [Nat.one_shiftLeft, Nat.testBit_two_pow, Bool.eq_iff_iff,
    decide_eq_true_iff, beq_iff_eq]
  exact eq_comm

/- The mask of some members has the bits of their numbers. -/
theorem Lowered.testBit_maskOf
    {members : List Nat}
    (h : ∀ k ∈ members, k < LoweringOptions.maskWidth)
    (i : Nat) :
    (Lowered.maskOf members).testBit i = members.contains i := by
  have hFold :
      ∀ (ks : List Nat) (mask : Nat),
        (ks.foldl (fun mask n => mask ||| 1 <<< n) mask).testBit i =
          (mask.testBit i || ks.contains i) := by
    intro ks
    induction ks with
    | nil => simp
    | cons k ks ih =>
        intro mask
        rw [List.foldl_cons, ih, Nat.testBit_or,
          testBit_one_shiftLeft, Bool.or_assoc, List.contains_cons]
  have hAll :
      members.filter (· < LoweringOptions.maskWidth) = members :=
    List.filter_eq_self.mpr fun k hk => decide_eq_true (h k hk)
  unfold maskOf
  rw [hAll, hFold, Nat.zero_testBit, Bool.false_or]

namespace Value

/- Numbers below a domain. -/
theorem numberBelow_eq_ok
    {domain n : Nat}
    {v : Value}
    (h : v.numberBelow domain = .ok n) :
    v.ordinal? = Option.some (n : Int) ∧ n < domain := by
  unfold numberBelow at h
  split at h
  · rename_i k hOrdinal
    split at h
    · rename_i hRange
      simp only [Bool.and_eq_true, decide_eq_true_eq] at hRange
      cases h
      have hEq : (k.toNat : Int) = k := Int.toNat_of_nonneg hRange.1
      exact ⟨by rw [hOrdinal, hEq], by omega⟩
    · cases h
  · cases h

/- The mask of a set has the bits of the numbers of its items. -/
theorem exists_maskOf
    {domain : Nat}
    (hDomain : domain ≤ LoweringOptions.maskWidth)
    {items : List Value}
    {numbers : List Nat}
    (h : items.mapM (numberBelow domain) = .ok numbers) :
    ∃ bits, maskOf items = .ok bits ∧
      ∀ i, bits.testBit i = numbers.contains i := by
  induction items generalizing numbers with
  | nil =>
      cases h
      exact ⟨0, rfl, fun i => by simp⟩
  | cons v vs ih =>
      rw [List.mapM_cons] at h
      rcases exists_of_bind_eq_ok h with ⟨n, hNumber, h⟩
      rcases exists_of_bind_eq_ok h with ⟨ns, hRest, hEq⟩
      cases hEq
      rcases numberBelow_eq_ok hNumber with ⟨hOrdinal, hLt⟩
      rcases ih hRest with ⟨bits, hBits, hTest⟩
      have hRange : (0 ≤ (n : Int) && (n : Int) < 128) = true := by
        unfold LoweringOptions.maskWidth at hDomain
        simp only [Bool.and_eq_true, decide_eq_true_eq]
        omega
      refine ⟨1 <<< n ||| bits, ?_, fun i => ?_⟩
      · simp only [maskOf, hOrdinal, hRange, if_true, hBits]
        rfl
      · rw [Nat.testBit_or, testBit_one_shiftLeft, hTest,
          List.contains_cons]

end Value

/- Comparing masks is comparing numbers. -/
theorem SetPattern.holdsByNumber_eq
    (p : SetPattern)
    {members numbers : List Nat}
    {mask bits : Nat}
    (hMask : ∀ i, mask.testBit i = members.contains i)
    (hBits : ∀ i, bits.testBit i = numbers.contains i) :
    (if p.exact then bits == mask else bits &&& mask == mask) =
      p.holdsByNumber members numbers := by
  have hSub :
      (bits &&& mask == mask) = members.all numbers.contains := by
    rw [Bool.eq_iff_iff, beq_iff_eq, List.all_eq_true]
    constructor
    · intro hEq i hi
      have hBit := congrArg (Nat.testBit · i) hEq
      simp only [Nat.testBit_and, hMask, hBits,
        List.contains_iff_mem.mpr hi, Bool.and_true] at hBit
      exact hBit
    · intro hAll
      refine Nat.eq_of_testBit_eq fun i => ?_
      rw [Nat.testBit_and, hMask, hBits]
      cases hMem : members.contains i with
      | false => exact Bool.and_false _
      | true =>
          rw [Bool.and_true]
          exact hAll i (List.contains_iff_mem.mp hMem)
  unfold holdsByNumber
  cases p.exact with
  | false => simpa using hSub
  | true =>
      simp only [if_true, Bool.not_true, Bool.false_or]
      rw [Bool.eq_iff_iff, beq_iff_eq, Bool.and_eq_true,
        List.all_eq_true, List.all_eq_true]
      constructor
      · rintro rfl
        have hSame : ∀ i, members.contains i = numbers.contains i :=
          fun i => (hMask i).symm.trans (hBits i)
        refine ⟨fun i hi => ?_, fun i hi => ?_⟩
        · exact hSame i ▸ List.contains_iff_mem.mpr hi
        · exact (hSame i).symm ▸ List.contains_iff_mem.mpr hi
      · rintro ⟨hMembers, hNumbers⟩
        refine Nat.eq_of_testBit_eq fun i => ?_
        rw [hMask, hBits, Bool.eq_iff_iff, List.contains_iff_mem,
          List.contains_iff_mem]
        exact ⟨fun hi => List.contains_iff_mem.mp (hNumbers i hi),
          fun hi => List.contains_iff_mem.mp (hMembers i hi)⟩

end MatchCompiler

------------------------------------------------------------
-- Readings Of Nodes
------------------------------------------------------------

namespace MatchCompiler

/-
  Where a set pattern with numbered members gets no mask, the
  names of its members give the verdict that their numbers
  give.
-/
def SetPattern.NamedAsNumbered
    (o : LoweringOptions)
    (p : SetPattern)
    (v : Value) : Prop :=
  ∀ domain members items numbers,
    p.numbers? = some (domain, members) → o.bitsetLimit < domain →
    v = .set items →
    items.mapM (Value.numberBelow domain) = .ok numbers →
    Value.setContains (p.members.map SetMember.literal) p.exact items =
      p.holdsByNumber members numbers

/- The numbers of the members of a set pattern. -/
theorem SetPattern.mem_of_mapM
    {ms : List SetMember}
    {ks : List Nat}
    (h : ms.mapM SetMember.ordinal = some ks)
    {k : Nat}
    (hk : k ∈ ks) :
    ∃ m ∈ ms, m.ordinal = some k := by
  induction ms generalizing ks with
  | nil =>
      cases h
      cases hk
  | cons m ms ih =>
      rw [List.mapM_cons] at h
      rcases hHead : m.ordinal with _ | n
      · rw [hHead] at h
        cases h
      · rcases hTail : ms.mapM SetMember.ordinal with _ | ns
        · rw [hHead, hTail] at h
          cases h
        · rw [hHead, hTail] at h
          cases h
          rcases List.mem_cons.mp hk with rfl | hMem
          · exact ⟨m, List.mem_cons_self, hHead⟩
          · rcases ih hTail hMem with ⟨m', hm', hOrdinal⟩
            exact ⟨m', List.mem_cons_of_mem m hm', hOrdinal⟩

namespace Lowered

variable {root : Value}
variable {c : Choices}
variable {a : Access}
variable {v : Value}

/- The test of a literal asks whether it holds. -/
theorem reading_literal
    (hRead : a.resolve root c = .ok v)
    (l : CheckedLiteral) :
    (literal a l).test.reading root c = l.holds v := by
  cases l with
  | value k => exact Test.reading_of_query (t := .equals a k) rfl hRead
  | member m => exact Test.reading_of_query (t := .tagIs a m) rfl hRead
  | nil => exact Test.reading_of_query (t := .isNil a) rfl hRead
  | none => exact Test.reading_of_query (t := .isNone a) rfl hRead

/- The test of a pin asks whether it holds. -/
theorem reading_pin
    (hRead : a.resolve root c = .ok v)
    (p : Pin) :
    (pin a p).reading root c = p.holds v := by
  have hField :
      (Access.field a p.discriminator).resolve root c =
        v.readField p.discriminator := by
    simp only [Access.resolve, hRead]
    rfl
  unfold Pin.holds
  rcases hTag : v.readField p.discriminator with cause | tag
  · rw [hTag] at hField
    unfold pin
    split
    · simp only [Test.reading, Test.query, hField]
      rfl
    · simp only [Test.reading, Test.query, hField]
  · rw [hTag] at hField
    unfold pin
    split
    · rename_i only hLabels
      rw [Test.reading_of_query rfl hField, hLabels]
      change _ = (tag.readOrdinal >>= _)
      refine congrArg (tag.readOrdinal >>= ·) ?_
      funext n
      simp only [List.any_cons, List.any_nil, Bool.or_false]
      refine congrArg pure ?_
      rw [Bool.eq_iff_iff, beq_iff_eq, beq_iff_eq]
      exact eq_comm
    · exact Test.reading_of_query (t := .tagIn _ p.labels) rfl hField

/- The test of a set pattern asks one question. -/
theorem isLeaf_set
    (o : LoweringOptions)
    (a : Access)
    (p : SetPattern) :
    (set o a p).IsLeaf := by
  unfold set
  split
  · split <;> trivial
  · trivial

/- Where a set pattern answers, its test gives that answer. -/
theorem reading_set
    (hRead : a.resolve root c = .ok v)
    {o : LoweringOptions}
    {p : SetPattern}
    (hMembers :
      ∀ n ∈ p.domain, ∀ m ∈ p.members, ∀ k ∈ m.ordinal, k < n)
    (hNamed : p.NamedAsNumbered o v)
    {b : Bool}
    (h : p.holds v = .ok b) :
    (set o a p).reading root c = .ok b := by
  rcases exists_of_bind_eq_ok h with ⟨items, hItems, h⟩
  have hContains :
      (Test.setContains a (p.members.map SetMember.literal)
        p.exact).reading root c =
        .ok (Value.setContains (p.members.map SetMember.literal)
          p.exact items) := by
    rw [Test.reading_of_query (t := .setContains a _ p.exact) rfl hRead]
    simp only [hItems]
    rfl
  have hSet : v = .set items := by
    unfold Value.readSet at hItems
    split at hItems
    · cases hItems
      rfl
    · cases hItems
  rcases hDomain : p.domain with _ | domain
  · have hNone : p.numbers? = none := by
      simp [SetPattern.numbers?, hDomain]
    rw [hNone] at h
    cases h
    simp only [set, hDomain]
    exact hContains
  · rcases hNumbers : p.members.mapM SetMember.ordinal with _ | members
    · have hNone : p.numbers? = none := by
        simp [SetPattern.numbers?, hNumbers]
      rw [hNone] at h
      cases h
      simp only [set, hDomain, hNumbers]
      exact hContains
    · have hSome : p.numbers? = some (domain, members) := by
        simp [SetPattern.numbers?, hDomain, hNumbers]
      rw [hSome] at h
      rcases exists_of_bind_eq_ok h with ⟨numbers, hBelow, hEq⟩
      cases hEq
      simp only [set, hDomain, hNumbers]
      by_cases hLimit : domain ≤ o.bitsetLimit
      · rw [if_pos hLimit]
        have hWidth : domain ≤ LoweringOptions.maskWidth :=
          hLimit.trans (Nat.min_le_right _ _)
        have hLt : ∀ k ∈ members, k < LoweringOptions.maskWidth := by
          intro k hk
          rcases SetPattern.mem_of_mapM hNumbers hk with ⟨m, hm, hk⟩
          exact (hMembers domain hDomain m hm k hk).trans_le hWidth
        rcases Value.exists_maskOf hWidth hBelow with
          ⟨bits, hBits, hTest⟩
        rw [Test.reading_of_query (t := .setMask a _ p.exact) rfl hRead]
        simp only [hItems]
        change (Value.maskOf items >>= _) = _
        rw [hBits]
        exact congrArg Except.ok
          (p.holdsByNumber_eq (testBit_maskOf hLt) hTest)
      · rw [if_neg hLimit, hContains]
        exact congrArg Except.ok
          (hNamed domain members items numbers hSome
            (Nat.lt_of_not_le hLimit) hSet hBelow)

end Lowered

end MatchCompiler

------------------------------------------------------------
-- Plans Of Checked Patterns
------------------------------------------------------------

namespace MatchCompiler

namespace Plan

/- The tests of an object before its fields. -/
theorem follow_objectTests
    (can : GuardAnswers)
    {root : Value}
    {a : Access}
    {v : Value}
    (hRead : a.resolve root .empty = .ok v)
    (head : ObjectHead)
    (env : ValueBindings) :
    FollowInTurn can root
      ((Lowered.objectTests a head).map Plan.test) env
      ((head.holds v).map (ValueBindings.keepIf env)) := by
  have hType :
      FollowInTurn can root
        ((head.runtimeType.map (Test.typeIs a)).toList.map Plan.test)
        env
        (.ok (ValueBindings.keepIf env
          (head.runtimeType.all fun name => v.isOfType name))) := by
    rcases head.runtimeType with _ | name
    · exact followInTurn_nil env
    · exact (follows_leaf (t := .typeIs a name) trivial
        (Test.reading_of_query rfl hRead) env).single
  have hNil :
      ∀ env, FollowInTurn can root
        ((if head.nilCheck then [Test.isNotNil a] else []).map
          Plan.test) env
        (.ok (ValueBindings.keepIf env
          (!(head.nilCheck && v.isNil)))) := by
    intro env
    rcases head.nilCheck with _ | _
    · exact followInTurn_nil env
    · exact (follows_leaf (t := .isNotNil a) trivial
        (Test.reading_of_query rfl hRead) env).single
  have hPin :
      ∀ env, FollowInTurn can root
        ((head.pin.map (Lowered.pin a)).toList.map Plan.test) env
        ((match head.pin with
          | some pin => pin.holds v
          | none => return true).map (ValueBindings.keepIf env)) := by
    intro env
    rcases head.pin with _ | pin
    · exact followInTurn_nil env
    · have hLeaf : (Lowered.pin a pin).IsLeaf := by
        unfold Lowered.pin
        split <;> trivial
      exact (follows_leaf hLeaf
        (Lowered.reading_pin hRead pin) env).single
  unfold Lowered.objectTests
  rw [List.map_append, List.map_append]
  refine ((hType.append hNil).append hPin).mono fun found hFound => ?_
  rw [← hFound]
  unfold ObjectHead.holds
  have hAny :
      (head.runtimeType.all fun name => v.isOfType name) =
        !(head.runtimeType.any fun name => !v.isOfType name) := by
    cases head.runtimeType with
    | none => rfl
    | some name => simp
  rw [hAny]
  rcases head.runtimeType.any fun name => !v.isOfType name with _ | _
  · rcases head.nilCheck && v.isNil with _ | _
    · rfl
    · rfl
  · rfl

end Plan

namespace Checked

/-
  What direct matching relies on at one node: a fixed array
  has its declared length, and a set compared by the names of
  its members is compared as if by number.
-/
def Fits
    (o : LoweringOptions) : Checked → Value → Prop
| .seq _ _ (Option.some n) _ _ => fun v =>
    ∀ m, v.readLength = .ok m → m = n
| .set _ p => fun v => p.NamedAsNumbered o v
| _ => fun _ => True

/-
  The plan of a pattern at an access follows direct matching
  of the value that the access leads to.
-/
def Tracked
    (o : LoweringOptions)
    (answer : GuardId → ValueBindings → Bool)
    (root : Value)
    (p : Checked) : Prop :=
  ∀ ⦃inside : Bool⦄ ⦃a : Access⦄ ⦃v : Value⦄,
    a.resolve root .empty = .ok v →
    (∀ e, Meets (p, v) e → e.1.Fits o e.2) →
    ∀ env, (p.plan o inside a).Follows (.ofFunction answer) root env
      (p.matchAt answer inside v env)

variable {o : LoweringOptions}
variable {answer : GuardId → ValueBindings → Bool}
variable {root : Value}
variable {inside : Bool}
variable {a : Access}
variable {v : Value}

theorem follow_fields
    {fs : List (FieldRead × Checked)}
    (h : ∀ f ∈ fs, Tracked o answer root f.2)
    (hRead : a.resolve root .empty = .ok v)
    (hFits :
      ∀ f ∈ fs, ∀ w, v.readField f.1.name = .ok w →
        ∀ e, Meets (f.2, w) e → e.1.Fits o e.2)
    (env : ValueBindings) :
    Plan.FollowInTurn (.ofFunction answer) root
      (planFields o inside fs a) env
      (matchFields answer inside fs v env) := by
  induction fs generalizing env with
  | nil => exact Plan.followInTurn_nil env
  | cons f fs ih =>
      rcases f with ⟨f, p⟩
      rcases List.forall_mem_cons.mp h with ⟨hp, hps⟩
      rcases List.forall_mem_cons.mp hFits with ⟨hHere, hThere⟩
      simp only [matchFields]
      rcases hw : v.readField f.name with cause | w
      · exact nofun
      · have hField :
            (Access.field a f.name).resolve root .empty = .ok w := by
          simp only [Access.resolve, hRead]
          exact hw
        exact (hp hField (hHere w hw) env).cons (ih hps hThere)

theorem follow_tuple
    {items : List (Nat × Checked)}
    (h : ∀ i ∈ items, Tracked o answer root i.2)
    (hRead : a.resolve root .empty = .ok v)
    (hFits :
      ∀ i ∈ items, ∀ w, v.readItem (.fromStart i.1) = .ok w →
        ∀ e, Meets (i.2, w) e → e.1.Fits o e.2)
    (env : ValueBindings) :
    Plan.FollowInTurn (.ofFunction answer) root
      (planTuple o inside items a) env
      (matchTuple answer inside items v env) := by
  induction items generalizing env with
  | nil => exact Plan.followInTurn_nil env
  | cons i items ih =>
      rcases i with ⟨i, p⟩
      rcases List.forall_mem_cons.mp h with ⟨hp, hps⟩
      rcases List.forall_mem_cons.mp hFits with ⟨hHere, hThere⟩
      simp only [matchTuple]
      rcases hw : v.readItem (.fromStart i) with cause | w
      · exact nofun
      · have hItem :
            (Access.index a (.fromStart i)).resolve root .empty =
              .ok w := by
          simp only [Access.resolve, hRead]
          exact hw
        exact (hp hItem (hHere w hw) env).cons (ih hps hThere)

theorem follow_entries
    {es : List (Literal × Checked)}
    (h : ∀ e ∈ es, Tracked o answer root e.2)
    (hRead : a.resolve root .empty = .ok v)
    (hFits :
      ∀ e ∈ es, ∀ w, v.readKey e.1 = .ok w →
        ∀ e', Meets (e.2, w) e' → e'.1.Fits o e'.2)
    (env : ValueBindings) :
    Plan.FollowInTurn (.ofFunction answer) root
      (planEntries o inside es a) env
      (matchEntries answer inside es v env) := by
  induction es generalizing env with
  | nil => exact Plan.followInTurn_nil env
  | cons e es ih =>
      rcases e with ⟨key, p⟩
      rcases List.forall_mem_cons.mp h with ⟨hp, hps⟩
      rcases List.forall_mem_cons.mp hFits with ⟨hHere, hThere⟩
      have hTest :
          (Plan.test (.hasKey a key)).Follows (.ofFunction answer) root
            env ((v.hasKey key).map (ValueBindings.keepIf env)) :=
        Plan.follows_leaf (t := .hasKey a key) trivial
          (Test.reading_of_query rfl hRead) env
      -- What is matched once the key is there.
      let next : ValueBindings → MatchResult := fun env => do
        let w ← v.readKey key
        (p.matchAt answer inside w env).andThen
          (matchEntries answer inside es v)
      have hNext :
          ∀ env, Plan.FollowInTurn (.ofFunction answer) root
            (p.plan o inside (.mapValue a key) ::
              planEntries o inside es a) env (next env) := by
        intro env
        simp only [next]
        rcases hw : v.readKey key with cause | w
        · exact nofun
        · have hValue :
              (Access.mapValue a key).resolve root .empty = .ok w := by
            simp only [Access.resolve, hRead]
            exact hw
          exact (hp hValue (hHere w hw) env).cons (ih hps hThere)
      refine (hTest.cons hNext).mono fun found hFound => ?_
      rw [← hFound]
      simp only [matchEntries]
      rcases v.hasKey key with cause | _ | _
      · rfl
      · rfl
      · rfl

theorem follow_slots
    {ps : List Checked}
    (h : ∀ p ∈ ps, Tracked o answer root p)
    {slots : List Access}
    {sources : List SlotSource}
    (hSlots :
      slots.map (Access.resolve root .empty) =
        sources.map v.readSlot)
    (hFits :
      ∀ e ∈ ps.zip sources, ∀ w, v.readSlot e.2 = .ok w →
        ∀ e', Meets (e.1, w) e' → e'.1.Fits o e'.2)
    (env : ValueBindings) :
    Plan.FollowInTurn (.ofFunction answer) root
      (planSlots o inside ps slots) env
      (matchSlots answer inside ps sources v env) := by
  induction ps generalizing env slots sources with
  | nil => exact Plan.followInTurn_nil env
  | cons p ps ih =>
      rcases List.forall_mem_cons.mp h with ⟨hp, hps⟩
      rcases slots with _ | ⟨b, slots⟩
      · rcases sources with _ | ⟨source, sources⟩
        · exact Plan.followInTurn_nil env
        · cases hSlots
      · rcases sources with _ | ⟨source, sources⟩
        · cases hSlots
        · rcases List.cons_eq_cons.mp hSlots with ⟨hb, hRest⟩
          rcases List.forall_mem_cons.mp hFits with ⟨hHere, hThere⟩
          simp only [matchSlots]
          rcases hw : v.readSlot source with cause | w
          · exact nofun
          · exact (hp (hb.trans hw) (hHere w hw) env).cons
              (ih hps hRest hThere)

theorem follow_spread
    {p : Option Checked}
    (h : ∀ q ∈ p, Tracked o answer root q)
    {slice : Option Access}
    {range : Option SpreadRange}
    (hSlice :
      slice.map (Access.resolve root .empty) =
        range.map v.readSlice)
    (hFits :
      ∀ q ∈ p, ∀ r ∈ range, ∀ w, v.readSlice r = .ok w →
        ∀ e, Meets (q, w) e → e.1.Fits o e.2)
    (env : ValueBindings) :
    Plan.FollowInTurn (.ofFunction answer) root
      (planSpread o inside p slice) env
      (matchSpread answer inside p range v env) := by
  rcases p with _ | p
  · exact Plan.followInTurn_nil env
  · rcases slice with _ | b
    · rcases range with _ | r
      · exact Plan.followInTurn_nil env
      · cases hSlice
    · rcases range with _ | r
      · cases hSlice
      · have hb := Option.some.inj hSlice
        simp only [matchSpread]
        rcases hw : v.readSlice r with cause | w
        · exact nofun
        · exact (h p rfl (hb.trans hw)
            (hFits p rfl r rfl w hw) env).single

theorem follows_first
    {ps : List Checked}
    (h : ∀ p ∈ ps, Tracked o answer root p)
    (hRead : a.resolve root .empty = .ok v)
    (hFits :
      ∀ p ∈ ps, ∀ e, Meets (p, v) e → e.1.Fits o e.2)
    (env : ValueBindings) :
    (Plan.alt (planBranches o ps a)).Follows (.ofFunction answer) root
      env (matchFirst answer ps v env) := by
  induction ps with
  | nil =>
      intro found hFound r hYields
      rw [← hFound]
      exact hYields
  | cons p ps ih =>
      rcases List.forall_mem_cons.mp h with ⟨hp, hps⟩
      rcases List.forall_mem_cons.mp hFits with ⟨hHere, hThere⟩
      have hHead := @hp true a v hRead hHere env
      intro found hFound r hYields
      simp only [matchFirst] at hFound
      rcases exists_of_bind_eq_ok hFound with ⟨first, hFirst, hNext⟩
      rcases first with _ | env'
      · rcases hYields with ⟨-, hRest⟩ | ⟨hNe, hOther⟩
        · exact ih hps hThere found hNext r hRest
        · exact absurd (hHead _ hFirst _ hOther) hNe
      · cases hNext
        rcases hYields with ⟨hFail, -⟩ | ⟨-, hOther⟩
        · cases hHead _ hFirst _ hFail
        · exact hHead _ hFirst _ hOther

/- What is there is matched by its payload. -/
theorem follows_some
    (s : Span)
    {p : Checked}
    (h : Tracked o answer root p)
    (hRead : a.resolve root .empty = .ok v)
    (hFits : ∀ e, Meets (.some s p, v) e → e.1.Fits o e.2)
    (env : ValueBindings) :
    ((Checked.some s p).plan o inside a).Follows (.ofFunction answer)
      root env ((Checked.some s p).matchAt answer inside v env) := by
  have hTest :
      (Plan.test (.isSome a)).Follows (.ofFunction answer) root
        env (v.readPresence.map (ValueBindings.keepIf env)) :=
    Plan.follows_leaf (t := .isSome a) trivial
      (Test.reading_of_query rfl hRead) env
  have hPayload :
      ∀ env, Plan.FollowInTurn (.ofFunction answer) root
        [p.plan o inside (.payload a)] env
        (v.readPayload >>= fun w =>
          p.matchAt answer inside w env) := by
    intro env
    rcases hw : v.readPayload with cause | w
    · rintro found ⟨⟩
    · have hAccess :
          (Access.payload a).resolve root .empty = .ok w := by
        simp only [Access.resolve, hRead]
        exact hw
      exact (h hAccess
        (fun e he => hFits e (.head (.payload s p hw) he))
        env).single
  refine (hTest.cons hPayload).mono fun found hFound => ?_
  rw [← hFound]
  simp only [matchAt]
  rcases v.readPresence with cause | _ | _
  · rfl
  · rfl
  · rfl

/- A sequence is matched by its length, slots and spread. -/
theorem follows_seq
    (s : Span)
    {l : SeqLayout}
    {fixed : Option Nat}
    {items : List Checked}
    {spread : Option Checked}
    (hFixed : ∀ n ∈ fixed, l.accepts n)
    (hItems : ∀ p ∈ items, Tracked o answer root p)
    (hSpread : ∀ p ∈ spread, Tracked o answer root p)
    (hRead : a.resolve root .empty = .ok v)
    (hFits :
      ∀ e, Meets (.seq s l fixed items spread, v) e → e.1.Fits o e.2)
    (env : ValueBindings) :
    ((Checked.seq s l fixed items spread).plan o inside a).Follows
      (.ofFunction answer) root env
      ((Checked.seq s l fixed items spread).matchAt answer inside v env) := by
  rcases Lowered.exists_seqAccesses hFixed a with
    ⟨length, slots, slice, hAcc, -, -⟩
  have hLeaf := Lowered.isLeaf_of_seqAccesses hAcc
  simp only [plan, hAcc, matchAt]
  rcases hLength : v.readLength with cause | n
  · rintro found ⟨⟩
  · rcases Value.exists_items_of_readLength hLength with
      ⟨values, hValues, rfl⟩
    have hSame : ∀ k ∈ fixed, values.length = k := by
      rintro k ⟨⟩
      exact hFits _ .refl values.length hLength
    change Plan.Follows _ _ _ _ (match l.resolve values.length with
      | Option.none => .ok Option.none
      | Option.some r =>
          (matchSlots answer inside items r.slots v env).andThen
            (matchSpread answer inside spread r.spread v))
    rcases hResolve : l.resolve values.length with _ | r
    · -- The length cannot match, and its test says so.
      rcases Lowered.refused_of_seqAccesses hRead hValues hResolve
        hSame hAcc with ⟨t, rfl, hTest⟩
      have hNone : ∀ env' : ValueBindings,
          Plan.FollowInTurn (.ofFunction answer) root
            (planSlots o inside items slots ++
              planSpread o inside spread slice) env'
            (.error .outOfBounds) := by
        rintro env' found ⟨⟩
      exact (Plan.follows_leaf (hLeaf t rfl) hTest env).cons hNone
    · rcases Lowered.reads_of_seqAccesses hRead hValues hResolve
        hSame hAcc with ⟨hTest, hSlotReads, hSliceReads⟩
      have hParts :
          ∀ env, Plan.FollowInTurn (.ofFunction answer) root
            (planSlots o inside items slots) env
            (matchSlots answer inside items r.slots v env) :=
        follow_slots hItems hSlotReads fun e he w hw e' he' =>
          hFits e' (.head
            (.slot s fixed spread hLength hResolve he hw) he')
      have hRest :
          ∀ env, Plan.FollowInTurn (.ofFunction answer) root
            (planSpread o inside spread slice) env
            (matchSpread answer inside spread r.spread v env) := by
        refine follow_spread hSpread hSliceReads ?_
        rintro q ⟨⟩ range hRange w hw e he
        exact hFits e (.head
          (.spread s fixed items q hLength hResolve hRange hw) he)
      have hAll := fun env => (hParts env).append hRest
      rcases length with _ | t
      · exact hAll env
      · exact (Plan.follows_leaf (hLeaf t rfl) (hTest t rfl)
          env).cons hAll

/-
  The plan of a regular pattern follows direct matching. The
  induction is over the pattern; what it relies on passes to
  the parts that are met.
-/
theorem Regular.tracked
    {p : Checked}
    (h : p.Regular) :
    Tracked o answer root p := by
  induction h with
  | wildcard s =>
      intro inside a v hRead hFits env
      exact Plan.follows_leaf (t := .always) trivial rfl env
  | literal s l =>
      intro inside a v hRead hFits env
      have hLeaf : (Lowered.literal a l).test.IsLeaf := by
        cases l <;> trivial
      exact Plan.follows_leaf hLeaf (Lowered.reading_literal hRead l) env
  | @set s p hMembers =>
      intro inside a v hRead hFits env found hFound r hYields
      have hLeaf := Lowered.isLeaf_set o a p
      have hNamed : p.NamedAsNumbered o v := hFits _ .refl
      simp only [matchAt] at hFound
      rcases hHolds : p.holds v with cause | b
      · rw [hHolds] at hFound
        cases hFound
      · rw [hHolds] at hFound
        have hReading :=
          Lowered.reading_set hRead hMembers hNamed hHolds
        exact Plan.follows_leaf hLeaf hReading env found hFound r hYields
  | typeIs s id name =>
      intro inside a v hRead hFits env
      exact Plan.follows_leaf (t := .typeIs a name) trivial
        (Test.reading_of_query rfl hRead) env
  | @bind s x p h ih =>
      intro inside a v hRead hFits env
      have hInner := @ih inside a v hRead
        (fun e he => hFits e (.head (.bind s x p v) he)) env
      exact hInner.bind x hRead
  | @guarded s p id h ih =>
      intro inside a v hRead hFits env
      have hInner := @ih inside a v hRead
        (fun e he => hFits e (.head (.guarded s p id v) he))
      simp only [plan, matchAt]
      cases inside with
      | false => exact hInner env
      | true =>
          refine (hInner env).cons fun env' => Plan.Follows.single ?_
          rintro found hFound r ⟨b, rfl, rfl⟩
          exact hFound
  | @some s p h ih =>
      intro inside a v hRead hFits env
      exact follows_some s ih hRead hFits env
  | @alt s ps h ih =>
      intro inside a v hRead hFits env
      exact follows_first ih hRead
        (fun p hp e he => hFits e (.head (.alt s hp v) he)) env
  | @object s head fs h ih =>
      intro inside a v hRead hFits env
      have hFields :
          ∀ env, Plan.FollowInTurn (.ofFunction answer) root
            (planFields o inside fs a) env
            (matchFields answer inside fs v env) :=
        follow_fields ih hRead fun f hf w hw e he =>
          hFits e (.head (.field s head hf hw) he)
      have hTests := Plan.follow_objectTests (.ofFunction answer)
        hRead head env
      refine (hTests.append hFields).mono fun found hFound => ?_
      rw [← hFound]
      simp only [matchAt]
      rcases head.holds v with cause | _ | _
      · rfl
      · rfl
      · rfl
  | @tuple s items h ih =>
      intro inside a v hRead hFits env
      exact follow_tuple ih hRead
        (fun i hi w hw e he => hFits e (.head (.item s hi hw) he)) env
  | @seq s l fixed items spread hItems hSpread hSlots hAt hFixed
      ihItems ihSpread =>
      intro inside a v hRead hFits env
      exact follows_seq s hFixed ihItems ihSpread hRead hFits env
  | @map s es h ih =>
      intro inside a v hRead hFits env
      exact follow_entries ih hRead
        (fun e he w hw e' he' => hFits e' (.head (.entry s he hw) he'))
        env

end Checked

end MatchCompiler

------------------------------------------------------------
-- Arms
------------------------------------------------------------

namespace MatchCompiler

/- Guards at the end of an arm are asked in turn. -/
theorem Plan.follow_guards
    (answer : GuardId → ValueBindings → Bool)
    (root : Value)
    (ids : List GuardId)
    (env : ValueBindings) :
    Plan.FollowInTurn (.ofFunction answer) root
      ((ids.map Test.guard).map Plan.test) env
      (CheckedArm.askInTurn answer ids env) := by
  induction ids with
  | nil => exact followInTurn_nil env
  | cons id ids ih =>
      intro found hFound r hYields
      unfold CheckedArm.askInTurn at hFound
      rw [List.all_cons] at hFound
      rcases hYields with
        ⟨env', ⟨b, hAnswer, hKeep⟩, hRest⟩ | ⟨hNe, b, hAnswer, rfl⟩
      · cases b with
        | false => cases hKeep
        | true =>
            cases hKeep
            rw [← hAnswer, Bool.true_and] at hFound
            exact ih found hFound r hRest
      · cases b with
        | true => exact absurd rfl (hNe env)
        | false =>
            rw [← hAnswer, Bool.false_and] at hFound
            exact hFound

/-
  Guards are answered from their numbers and the values of
  the names that they use.
-/
def Pattern.GuardsReadUses
    (p : Pattern)
    (answer : GuardId → ValueBindings → Bool) : Prop :=
  ∀ g ∈ p.guards, ∀ bs bs',
    (∀ x ∈ g.uses, bs.lookup x = bs'.lookup x) →
    answer g.id bs = answer g.id bs'

namespace Checked

/- Every fixed array that is met has its declared length. -/
def ArraysFit
    (p : Checked)
    (root : Value) : Prop :=
  ∀ span l n items spread v m,
    Meets (p, root) (.seq span l (Option.some n) items spread, v) →
    v.readLength = .ok m → m = n

/-
  Every set that is met gets by the names of its members the
  verdict that it gets by their numbers.
-/
def SetsNamedAsNumbered
    (o : LoweringOptions)
    (p : Checked)
    (root : Value) : Prop :=
  ∀ span q v,
    Meets (p, root) (.set span q, v) → q.NamedAsNumbered o v

end Checked

namespace CheckedArm

variable {arm : CheckedArm}
variable {p : Pattern}

/- The plan of an arm follows direct matching. -/
theorem follows_matchDirectly
    (hRegular : arm.pattern.Regular)
    {o : LoweringOptions}
    {root : Value}
    (hArrays : arm.pattern.ArraysFit root)
    (hSets : arm.pattern.SetsNamedAsNumbered o root)
    (answer : GuardId → ValueBindings → Bool) :
    (arm.plan o).Follows (.ofFunction answer) root []
      (arm.matchDirectly answer root) := by
  have hFits :
      ∀ e, Checked.Meets (arm.pattern, root) e → e.1.Fits o e.2 := by
    rintro ⟨q, v⟩ hMeets
    cases q with
    | seq span l fixed items spread =>
        cases fixed with
        | none => trivial
        | some n => exact fun m => hArrays _ _ _ _ _ v m hMeets
    | set span q => exact hSets span q v hMeets
    | _ => trivial
  have hTracked : arm.pattern.Tracked o answer root :=
    hRegular.tracked
  have hPattern := @hTracked false .scrutinee root rfl hFits []
  exact hPattern.cons (Plan.follow_guards answer root _)

/- A clause runs as direct matching says. -/
theorem AcceptedFrom.asSaidBy_matchDirectly
    (hArm : arm.AcceptedFrom p)
    (o : LoweringOptions)
    (i : Nat)
    {σ : Type}
    {host : GuardHost σ}
    {answer : GuardId → ValueBindings → Bool}
    (hHost : host.AnsweredBy answer)
    (hUses : p.GuardsReadUses answer)
    {root : Value}
    (hArrays : arm.pattern.ArraysFit root)
    (hSets : arm.pattern.SetsNamedAsNumbered o root)
    {found : Option ValueBindings}
    (hDirect : arm.matchDirectly answer root = .ok found)
    (s : σ) :
    MatchResult.AsSaidBy ((arm.clause o i).run host root s).1
      (.ok found) := by
  have hFollow :
      GuardAnswers.Follow (· ∈ p.guards)
        (.ofFunction answer) (.ofFunction answer) := by
    rintro g hg bs env b hSame rfl
    exact hUses g hg bs env hSame
  rcases hRun : (arm.clause o i).run host root s with ⟨r, s'⟩
  rcases hArm.yields_of_run hHost hFollow hRun with
    ⟨r', hYields, hSaid⟩
  have hEq := follows_matchDirectly hArm.regular hArrays hSets answer
    found hDirect r' hYields
  rw [hEq] at hSaid
  exact hSaid

end CheckedArm

end MatchCompiler

------------------------------------------------------------
-- Compiled And Direct Matching
------------------------------------------------------------

namespace MatchCompiler

/- Results that agree come from the same verdict. -/
theorem MatchResult.AsSaidBy.eq_of_keepIf
    {env : ValueBindings}
    {b b' : Bool}
    (h :
      MatchResult.AsSaidBy (.ok (ValueBindings.keepIf env b))
        (.ok (ValueBindings.keepIf env b'))) :
    b = b' := by
  cases b <;> cases b'
  · rfl
  · cases h
  · cases h
  · rfl

/- A set pattern without a mask is a test by name. -/
theorem Lowered.set_of_lt
    {o : LoweringOptions}
    {q : SetPattern}
    (hLimit :
      ∀ domain members, q.numbers? = some (domain, members) →
        o.bitsetLimit < domain)
    (a : Access) :
    set o a q =
      .setContains a (q.members.map SetMember.literal) q.exact := by
  unfold set
  split
  · rename_i domain members hDomain hMembers
    have hNumbers : q.numbers? = some (domain, members) := by
      simp [SetPattern.numbers?, hDomain, hMembers]
    exact if_neg (Nat.not_le_of_lt (hLimit domain members hNumbers))
  · rfl

/- The clause of such a pattern answers by the names. -/
theorem CheckedArm.run_clause_of_set
    {arm : CheckedArm}
    {span : Span}
    {q : SetPattern}
    (hPattern : arm.pattern = .set span q)
    {o : LoweringOptions}
    {domain : Nat}
    {members : List Nat}
    (hNumbers : q.numbers? = some (domain, members))
    (hLimit : o.bitsetLimit < domain)
    (i : Nat)
    {σ : Type}
    (host : GuardHost σ)
    (items : List Value)
    (s : σ) :
    ((arm.clause o i).run host (.set items) s).1 =
      .ok (ValueBindings.keepIf []
        (Value.setContains (q.members.map SetMember.literal) q.exact
          items)) := by
  have hSet :
      Lowered.set o .scrutinee q =
        .setContains .scrutinee (q.members.map SetMember.literal)
          q.exact := by
    refine Lowered.set_of_lt (fun domain' members' hEq => ?_) .scrutinee
    cases hNumbers.symm.trans hEq
    exact hLimit
  have hClause :
      arm.clause o i =
        { arm := i
          test := .setContains .scrutinee
            (q.members.map SetMember.literal) q.exact
          bindings := [] } := by
    unfold CheckedArm.clause
    rw [hPattern]
    simp only [Checked.lower, hSet]
    rfl
  have hEval :
      (Test.setContains .scrutinee (q.members.map SetMember.literal)
        q.exact).eval host (.set items) [] (Choices.empty, s) =
        (.ok (Value.setContains (q.members.map SetMember.literal)
          q.exact items), (Choices.empty, s)) :=
    Test.eval_leaf host (.set items) []
      (t := .setContains .scrutinee _ q.exact) trivial _ s
  rw [hClause]
  simp only [Clause.run, hEval]
  cases Value.setContains (q.members.map SetMember.literal) q.exact
    items with
  | false => rfl
  | true => rfl

/-
  Where direct matching does not fault, the clause of an
  accepted arm gives the same verdict and binds the same
  names to the same values, if every set that is met gets by
  the names of its members the verdict that it gets by their
  numbers. For an arm that is a set pattern this condition is
  also necessary.
-/
theorem clauseRun_asSaidBy_matchDirectly
    {arm : CheckedArm}
    {p : Pattern}
    (hArm : arm.AcceptedFrom p)
    (o : LoweringOptions)
    (i : Nat)
    {σ : Type}
    (host : GuardHost σ)
    (answer : GuardId → ValueBindings → Bool)
    (hHost : host.AnsweredBy answer)
    (hUses : p.GuardsReadUses answer)
    (root : Value)
    (hArrays : arm.pattern.ArraysFit root)
    (found : Option ValueBindings)
    (hDirect : arm.matchDirectly answer root = .ok found)
    (s : σ) :
    (arm.pattern.SetsNamedAsNumbered o root →
      MatchResult.AsSaidBy ((arm.clause o i).run host root s).1
        (.ok found)) ∧
    ∀ span q, arm.pattern = .set span q →
      MatchResult.AsSaidBy ((arm.clause o i).run host root s).1
        (.ok found) →
      q.NamedAsNumbered o root := by
  refine ⟨fun hSets => hArm.asSaidBy_matchDirectly o i hHost hUses
    hArrays hSets hDirect s, ?_⟩
  rintro span q hPattern hSaid domain members items numbers hNumbers
    hLimit rfl hBelow
  have hHolds :
      q.holds (.set items) = .ok (q.holdsByNumber members numbers) := by
    simp only [SetPattern.holds, Value.readSet, hNumbers]
    change (items.mapM (Value.numberBelow domain) >>= _) = _
    rw [hBelow]
    rfl
  have hFound :
      found =
        ValueBindings.keepIf [] (q.holdsByNumber members numbers) := by
    unfold CheckedArm.matchDirectly at hDirect
    rw [hPattern] at hDirect
    simp only [Checked.matchAt, hHolds] at hDirect
    cases hVerdict : q.holdsByNumber members numbers with
    | true =>
        rw [hVerdict] at hDirect
        cases hDirect
        rfl
    | false =>
        rw [hVerdict] at hDirect
        cases hDirect
        rfl
  rw [CheckedArm.run_clause_of_set hPattern hNumbers hLimit, hFound]
    at hSaid
  exact hSaid.eq_of_keepIf

/- An enumeration and the sets of its members. -/
def kindSchemas : Registry :=
  { pool :=
      { schemas :=
          #[{ kind := .enumeration, name := "Kind",
              members := [⟨"nkIdent", 0⟩, ⟨"nkCall", 1⟩] },
            { kind := .set, name := "Kinds", element := some 0 }] } }

/- A set pattern with a member that is named in short. -/
def shortNamePattern : Pattern :=
  .set {} [.sym "Ident"] false

/- What checking makes of it: the name stays as it is written. -/
def shortNameArm : CheckedArm :=
  { pattern :=
      .set {}
        { members := [⟨.sym "Ident", some 0⟩]
          exact := false
          domain := some 2 }
    bindings := [] }

theorem shortNameArm_accepted :
    shortNameArm.AcceptedFrom shortNamePattern :=
  ⟨kindSchemas, { table := {}, marker := 'k' }, 1, rfl⟩

/- It is found by direct matching, but not without a mask. -/
theorem shortNameArm_missed :
    shortNameArm.AcceptedFrom shortNamePattern ∧
    shortNameArm.matchDirectly (fun _ _ => true)
      (.set [.member "nkIdent" 0]) = .ok (some []) ∧
    ((shortNameArm.clause { bitsetDomainLimit := 0 } 0).run
      (fun _ _ => pure true) (.set [.member "nkIdent" 0]) ()).1 =
      .ok none :=
  ⟨shortNameArm_accepted, rfl, rfl⟩

/- The schemas with one more for pairs of sets. -/
def kindPairSchemas : Registry :=
  { pool :=
      { schemas :=
          kindSchemas.pool.schemas.push
            { kind := .array, name := "KindPair", element := some 1,
              arrayLength := some 2 } } }

/- One of two sets has a member, and a guard asks for the other. -/
def eitherSetPattern : Pattern :=
  .guarded {}
    (.alt {}
      [.seq {} [.item shortNamePattern none, .item (.bind {} "rest") none],
        .seq {}
          [.item (.bind {} "rest") none, .item shortNamePattern none]])
    { id := 0, text := "rest.isEmpty", uses := ["rest"] }

/- A pair of sets, as it is checked. -/
def checkedPair (first second : Checked) : Checked :=
  .seq {} (.ofSlots [none, none] none) (some 2) [first, second] none

def eitherSetArm : CheckedArm :=
  let rest : Checked := .bind {} "rest" (.wildcard {})
  { pattern :=
      .guarded {}
        (.alt {}
          [checkedPair shortNameArm.pattern rest,
            checkedPair rest shortNameArm.pattern])
        0
    bindings := [⟨"rest", 1, {}⟩] }

theorem eitherSetArm_accepted :
    eitherSetArm.AcceptedFrom eitherSetPattern :=
  ⟨kindPairSchemas, { table := {}, marker := 'k' }, 2, rfl⟩

/- What the guard answers. -/
def restIsEmpty
    (_ : GuardId)
    (bs : ValueBindings) : Bool :=
  match bs.lookup "rest" with
  | some (.set []) => true
  | _ => false

/- Of two sets, the second has the member. -/
def secondHasMember : Value :=
  .seq [.set [], .set [.member "nkIdent" 0]]

/- Both arrays that are met have two items; sets have masks. -/
theorem eitherSetArm_fits :
    ∀ e, Checked.Meets (eitherSetArm.pattern, secondHasMember) e →
      e.1.Fits {} e.2 := by
  have hSet :
      ∀ v e, Checked.Meets (shortNameArm.pattern, v) e →
        e.1.Fits {} e.2 := by
    refine fun v => Checked.forall_of_meets ?_ nofun
    rintro domain members items numbers hNumbers hLimit
    cases hNumbers
    exact absurd hLimit (by decide)
  have hName :
      ∀ v e, Checked.Meets (.bind {} "rest" (.wildcard {}), v) e →
        e.1.Fits {} e.2 := by
    refine fun v => Checked.forall_of_meets trivial ?_
    rintro _ ⟨⟩
    exact Checked.forall_of_meets trivial nofun
  have hPair :
      ∀ p q, (∀ v e, Checked.Meets (p, v) e → e.1.Fits {} e.2) →
        (∀ v e, Checked.Meets (q, v) e → e.1.Fits {} e.2) →
        ∀ e, Checked.Meets (checkedPair p q, secondHasMember) e →
          e.1.Fits {} e.2 := by
    intro p q hp hq
    refine Checked.forall_of_meets (fun m hm => by cases hm; rfl) ?_
    rintro _ ⟨⟩
    rename_i hMem _ _
    rcases List.mem_pair.mp (List.of_mem_zip hMem).1 with rfl | rfl
    · exact hp _
    · exact hq _
  refine Checked.forall_of_meets trivial ?_
  rintro _ ⟨⟩
  refine Checked.forall_of_meets trivial ?_
  rintro _ ⟨⟩
  rename_i hMem
  rcases List.mem_pair.mp hMem with rfl | rfl
  · exact hPair _ _ hSet hName
  · exact hPair _ _ hName hSet

/-
  The second alternative matches, and binds the name that the
  guard asks for.
-/
theorem eitherSetArm_found :
    eitherSetArm.AcceptedFrom eitherSetPattern ∧
    eitherSetArm.matchDirectly restIsEmpty secondHasMember =
      .ok (some [("rest", .set [])]) ∧
    MatchResult.AsSaidBy
      ((eitherSetArm.clause {} 0).run
        (fun id bs => pure (restIsEmpty id bs)) secondHasMember ()).1
      (.ok (some [("rest", .set [])])) := by
  have hUses : eitherSetPattern.GuardsReadUses restIsEmpty := by
    rintro g hg bs bs' hSame
    cases List.mem_singleton.mp hg
    have hRest := hSame "rest" (List.mem_singleton_self _)
    unfold restIsEmpty
    rw [hRest]
  have hDirect :
      eitherSetArm.matchDirectly restIsEmpty secondHasMember =
        .ok (some [("rest", .set [])]) := rfl
  have hArm := clauseRun_asSaidBy_matchDirectly eitherSetArm_accepted
    {} 0 (fun id bs => (pure (restIsEmpty id bs) : StateM Unit Bool))
    restIsEmpty (fun _ _ _ => rfl) hUses secondHasMember
    (fun _ _ _ _ _ _ m hMeets => eitherSetArm_fits _ hMeets m)
    (some [("rest", .set [])]) hDirect ()
  refine ⟨eitherSetArm_accepted, hDirect, hArm.1 ?_⟩
  exact fun _ _ _ hMeets => eitherSetArm_fits _ hMeets

end MatchCompiler
