import MatchCompiler.Schema.Registry
import Mathlib.Algebra.BigOperators.Fin

/-
  This file shows that the search for template parameters
  finds one if and only if there is one.

  The search looks at no more types than it is allowed to,
  and the number that is allowed suffices: each look at a
  type uses up one of the types that are mentioned in the
  table, and each descriptor is entered once. If nothing is
  found, the descriptors that were entered mention only one
  another and no parameter. That is so only of the search as
  a whole: inside it a descriptor that was entered before
  counts as one without parameters.

  Key definitions include:
    * `TypeTable.ClosedIn`
    * `TypeTable.unseenRefs`
    * `TypeTable.DependsOnScope`

  Key theorems include:
    * `TypeTable.reachesParam_of_closed`
    * `TypeTable.exists_closed_of_reachesParam`
    * `TypeTable.mentionsParams_of_mem`
    * `TypeTable.mentionsParams_iff`
-/

------------------------------------------------------------
-- Descriptors Without Parameters
------------------------------------------------------------

namespace MatchCompiler

namespace TypeTable

variable {t : TypeTable}

/- A mention of a descriptor in a list, or of none. -/
def MentionIn
    (t : TypeTable)
    (ids : List DescriptorId) : TypeRef → Prop
| .described id => (t.get? id).isSome = true → id ∈ ids
| .parameter _ => False

/- A descriptor that mentions only some descriptors. -/
def ClosedIn
    (t : TypeTable)
    (ids : List DescriptorId)
    (id : DescriptorId) : Prop :=
  ∀ d, t.get? id = some d →
    d.params = 0 ∧ ∀ ref ∈ d.shape.openRefs, t.MentionIn ids ref

/- Nothing is found among descriptors without parameters. -/
theorem reachesParam_of_closed
    {ids : List DescriptorId}
    (hClosed : ∀ id ∈ ids, t.ClosedIn ids id)
    (n : Nat)
    {visited : List DescriptorId}
    {refs : List TypeRef}
    (hRefs : ∀ ref ∈ refs, t.MentionIn ids ref) :
    t.reachesParam n visited refs = false := by
  induction n generalizing visited refs with
  | zero => rfl
  | succ n ih =>
      cases refs with
      | nil => rfl
      | cons ref rest =>
          rcases List.forall_mem_cons.mp hRefs with ⟨hRef, hRest⟩
          cases ref with
          | parameter i => exact hRef.elim
          | described id =>
              unfold reachesParam
              cases hGet : t.get? id with
              | none => exact ih hRest
              | some d =>
                  have hMem : id ∈ ids := hRef (hGet ▸ rfl)
                  rcases hClosed id hMem d hGet with ⟨hZero, hOpen⟩
                  have hNone : ¬ 0 < d.params := by omega
                  simp only [hNone, if_false]
                  split
                  · exact ih hRest
                  · exact ih (List.forall_mem_append.mpr ⟨hOpen, hRest⟩)

end TypeTable

end MatchCompiler

------------------------------------------------------------
-- Searching
------------------------------------------------------------

namespace MatchCompiler

namespace TypeTable

variable {t : TypeTable}

/- Number of types that a descriptor mentions. -/
def openCount
    (t : TypeTable)
    (id : DescriptorId) : Nat :=
  ((t.get? id).map (fun d => d.shape.openRefs.length)).getD 0

/- Number of types that descriptors not visited mention. -/
def unseenRefs
    (t : TypeTable)
    (visited : List DescriptorId) : Nat :=
  ∑ id ∈ Finset.range t.size,
    if id ∈ visited then 0 else t.openCount id

theorem unseenRefs_nil
    (t : TypeTable) :
    t.unseenRefs [] = t.refCount := by
  unfold unseenRefs refCount size
  rw [List.length_flatMap, ← Array.length_toList, Finset.sum_range,
    ← Fin.sum_univ_fun_getElem]
  refine Finset.sum_congr rfl fun i _ => ?_
  simp [openCount, get?]

/- Entering a descriptor uses up what it mentions. -/
theorem unseenRefs_cons
    {visited : List DescriptorId}
    {id : DescriptorId}
    (hLt : id < t.size)
    (hNew : id ∉ visited) :
    t.unseenRefs visited =
      t.openCount id + t.unseenRefs (id :: visited) := by
  have hMem : id ∈ Finset.range t.size := Finset.mem_range.mpr hLt
  unfold unseenRefs
  rw [← Finset.add_sum_erase _ _ hMem, ← Finset.add_sum_erase _
    (fun i => if i ∈ id :: visited then 0 else t.openCount i) hMem]
  simp only [hNew, List.mem_cons, true_or, if_true, if_false, Nat.zero_add]
  congr 1
  refine Finset.sum_congr rfl fun i hi => ?_
  have hNe : i ≠ id := Finset.ne_of_mem_erase hi
  simp [hNe]

/-
  If a search that may look at all types finds nothing, then
  what it was given and what it has entered mention only one
  another.
-/
theorem exists_closed_of_reachesParam
    {n : Nat}
    {visited : List DescriptorId}
    {refs : List TypeRef}
    (hNone : t.reachesParam n visited refs = false)
    (hEnough : refs.length + t.unseenRefs visited ≤ n) :
    ∃ ids, visited ⊆ ids ∧ (∀ ref ∈ refs, t.MentionIn ids ref) ∧
      ∀ id ∈ ids, id ∉ visited → t.ClosedIn ids id := by
  induction n generalizing visited refs with
  | zero =>
      have hNil : refs = [] := List.length_eq_zero_iff.mp (by omega)
      subst hNil
      exact ⟨visited, List.Subset.refl _, nofun,
        fun id hIn hOut => absurd hIn hOut⟩
  | succ n ih =>
      cases refs with
      | nil =>
          exact ⟨visited, List.Subset.refl _, nofun,
            fun id hIn hOut => absurd hIn hOut⟩
      | cons ref rest =>
          rw [List.length_cons] at hEnough
          cases ref with
          | parameter i => cases hNone
          | described id =>
              unfold reachesParam at hNone
              cases hGet : t.get? id with
              | none =>
                  rw [hGet] at hNone
                  rcases ih hNone (by omega) with
                    ⟨ids, hVisited, hRest, hClosed⟩
                  refine ⟨ids, hVisited, ?_, hClosed⟩
                  refine List.forall_mem_cons.mpr ⟨fun hSome => ?_, hRest⟩
                  rw [hGet] at hSome
                  cases hSome
              | some d =>
                  simp only [hGet] at hNone
                  split at hNone
                  · rename_i hSeen
                    rw [List.contains_iff_mem] at hSeen
                    rcases ih hNone (by omega) with
                      ⟨ids, hVisited, hRest, hClosed⟩
                    exact ⟨ids, hVisited, List.forall_mem_cons.mpr
                      ⟨fun _ => hVisited hSeen, hRest⟩, hClosed⟩
                  · rename_i hNew
                    rw [List.contains_iff_mem] at hNew
                    split at hNone
                    · cases hNone
                    · rename_i hParams
                      have hLt : id < t.size := by
                        have hSome : (t.get? id).isSome = true := hGet ▸ rfl
                        simpa [get?, size] using hSome
                      have hCount :
                          t.openCount id = d.shape.openRefs.length := by
                        simp only [openCount, hGet, Option.map_some,
                          Option.getD_some]
                      have hUsed := unseenRefs_cons hLt hNew
                      rcases ih hNone
                          (by rw [List.length_append]; omega) with
                        ⟨ids, hVisited, hRefs, hClosed⟩
                      rcases List.forall_mem_append.mp hRefs with
                        ⟨hOpen, hRest⟩
                      have hIn : id ∈ ids := hVisited List.mem_cons_self
                      refine ⟨ids,
                        fun i hi => hVisited (List.mem_cons_of_mem _ hi),
                        List.forall_mem_cons.mpr ⟨fun _ => hIn, hRest⟩,
                        fun i hi hOut => ?_⟩
                      by_cases hSame : i = id
                      · subst hSame
                        intro d' hGet'
                        cases hGet.symm.trans hGet'
                        exact ⟨by omega, hOpen⟩
                      · refine hClosed i hi fun hMem => ?_
                        rcases List.mem_cons.mp hMem with hEq | hMem
                        · exact hSame hEq
                        · exact hOut hMem

/-
  A descriptor that does not mention a parameter mentions no
  descriptor that does.
-/
theorem mentionsParams_of_mem
    {id : DescriptorId}
    {d : TypeDescriptor}
    (hGet : t.get? id = some d)
    (hNone : t.mentionsParams id = false)
    {ref : TypeRef}
    (hRef : ref ∈ d.shape.openRefs) :
    ∃ other, ref = .described other ∧
      t.mentionsParams other = false := by
  have hEnough :
      [TypeRef.described id].length + t.unseenRefs [] ≤ t.refCount + 1 := by
    rw [unseenRefs_nil, List.length_singleton, Nat.add_comm]
  rcases exists_closed_of_reachesParam hNone hEnough with
    ⟨ids, -, hStart, hClosed⟩
  have hIn : id ∈ ids := hStart _ List.mem_cons_self (hGet ▸ rfl)
  have hAll : ∀ i ∈ ids, t.ClosedIn ids i :=
    fun i hi => hClosed i hi List.not_mem_nil
  have hMention := (hAll id hIn d hGet).2 ref hRef
  cases ref with
  | parameter i => exact hMention.elim
  | described other =>
      refine ⟨other, rfl, reachesParam_of_closed hAll _ ?_⟩
      exact List.forall_mem_singleton.mpr hMention

end TypeTable

end MatchCompiler

------------------------------------------------------------
-- Dependence On Parameters
------------------------------------------------------------

namespace MatchCompiler

namespace TypeTable

variable {t : TypeTable}
variable {id : DescriptorId}

/-
  A descriptor mentions another where parameters in scope can
  be passed on: an instance does so in its arguments only.
-/
def OpensTo
    (t : TypeTable)
    (id other : DescriptorId) : Prop :=
  ∃ d, t.get? id = some d ∧ .described other ∈ d.shape.openRefs

/- A descriptor has parameters or mentions one. -/
def NamesParameter
    (t : TypeTable)
    (id : DescriptorId) : Prop :=
  ∃ d, t.get? id = some d ∧
    (0 < d.params ∨ ∃ i, .parameter i ∈ d.shape.openRefs)

/-
  A descriptor that has parameters or mentions one is reached
  from a descriptor, or is that descriptor.
-/
def DependsOnScope
    (t : TypeTable)
    (id : DescriptorId) : Prop :=
  ∃ other, Relation.ReflTransGen t.OpensTo id other ∧
    t.NamesParameter other

theorem DependsOnScope.of_opensTo
    {other : DescriptorId}
    (h : t.DependsOnScope other)
    (hOpens : t.OpensTo id other) :
    t.DependsOnScope id := by
  rcases h with ⟨last, hPath, hNames⟩
  exact ⟨last, .head hOpens hPath, hNames⟩

/- What the search finds is there. -/
theorem exists_of_reachesParam
    {n : Nat}
    {visited : List DescriptorId}
    {refs : List TypeRef}
    (h : t.reachesParam n visited refs = true) :
    ∃ ref ∈ refs,
      (∃ i, ref = .parameter i) ∨
      ∃ id, ref = .described id ∧ t.DependsOnScope id := by
  induction n generalizing visited refs with
  | zero => cases h
  | succ n ih =>
      cases refs with
      | nil => cases h
      | cons ref rest =>
          have hLater :
              ∀ {visited}, t.reachesParam n visited rest = true →
                ∃ r ∈ ref :: rest,
                  (∃ i, r = .parameter i) ∨
                  ∃ id, r = .described id ∧ t.DependsOnScope id := by
            intro visited hRest
            rcases ih hRest with ⟨r, hr, hFound⟩
            exact ⟨r, List.mem_cons_of_mem _ hr, hFound⟩
          cases ref with
          | parameter i =>
              exact ⟨_, List.mem_cons_self, .inl ⟨i, rfl⟩⟩
          | described id =>
              unfold reachesParam at h
              cases hGet : t.get? id with
              | none =>
                  rw [hGet] at h
                  exact hLater h
              | some d =>
                  simp only [hGet] at h
                  split at h
                  · exact hLater h
                  · split at h
                    · rename_i hParams
                      refine ⟨_, List.mem_cons_self, .inr ⟨id, rfl, id, ?_⟩⟩
                      exact ⟨.refl, d, hGet, .inl hParams⟩
                    · rcases ih h with ⟨r, hr, hFound⟩
                      rcases List.mem_append.mp hr with hOpen | hRest
                      · refine ⟨_, List.mem_cons_self, .inr ⟨id, rfl, ?_⟩⟩
                        rcases hFound with ⟨i, rfl⟩ | ⟨other, rfl, hOther⟩
                        · exact ⟨id, .refl, d, hGet, .inr ⟨i, hOpen⟩⟩
                        · exact hOther.of_opensTo ⟨d, hGet, hOpen⟩
                      · exact ⟨r, List.mem_cons_of_mem _ hRest, hFound⟩

/- Without a parameter below it a descriptor has none itself. -/
theorem params_of_not_mentionsParams
    {d : TypeDescriptor}
    (hGet : t.get? id = some d)
    (hNone : t.mentionsParams id = false) :
    d.params = 0 := by
  unfold mentionsParams reachesParam at hNone
  simp only [hGet, List.contains_nil, Bool.false_eq_true, if_false] at hNone
  split at hNone
  · cases hNone
  · omega

/-
  The schema of a descriptor counts as dependent on the
  arguments in scope if and only if a parameter, or a
  descriptor that has some, is reached from it, however the
  descriptors refer to one another.
-/
theorem mentionsParams_iff :
    t.mentionsParams id = true ↔ t.DependsOnScope id := by
  constructor
  · intro h
    rcases exists_of_reachesParam h with ⟨ref, hRef, hFound⟩
    cases List.mem_singleton.mp hRef
    rcases hFound with ⟨i, hEq⟩ | ⟨other, hEq, hOther⟩
    · cases hEq
    · cases hEq
      exact hOther
  · rintro ⟨other, hPath, d, hGet, hNames⟩
    by_contra hNone
    rw [Bool.not_eq_true] at hNone
    -- Nothing on the way to the parameter mentions one.
    have hOther : t.mentionsParams other = false := by
      clear hNames hGet
      induction hPath with
      | refl => exact hNone
      | tail _ hLast ih =>
          rcases hLast with ⟨e, hGet, hOpen⟩
          rcases mentionsParams_of_mem hGet ih hOpen with
            ⟨next, hEq, hNext⟩
          cases hEq
          exact hNext
    rcases hNames with hParams | ⟨i, hOpen⟩
    · have hZero := params_of_not_mentionsParams hGet hOther
      omega
    · rcases mentionsParams_of_mem hGet hOther hOpen with ⟨next, hEq, -⟩
      cases hEq

end TypeTable

end MatchCompiler
