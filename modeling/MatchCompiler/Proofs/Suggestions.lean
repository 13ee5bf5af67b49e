import MatchCompiler.Proofs.StableSort
import MatchCompiler.Suggestion
import Mathlib.Data.List.Nodup

/-
  This file shows which names are suggested for a name, and
  in which order.

  The candidates within the threshold are sorted by their
  distance, and neighbouring repetitions are merged. Two
  things can go wrong with that. A candidate is passed over if
  it has many more or fewer bytes than the name, although few
  characters differ. And a candidate is suggested twice if it
  is listed twice with an equally close one between. Exactly
  without these two the suggestions are complete, ranked and
  free of repetitions.

  Key definitions include:
    * `Suggestion.byteGap`
    * `Suggestion.Ranks`
    * `Clustered`

  Key theorems include:
    * `nodup_eraseReps_iff`
    * `Suggestion.similarWithin_eq`
    * `Suggestion.suggestions_for_name`
-/

------------------------------------------------------------
-- Neighbouring Repetitions
------------------------------------------------------------

namespace MatchCompiler

variable {α : Type}
variable {a b : α}
variable {xs : List α}

/- Equal elements have no other element between them. -/
def Clustered (xs : List α) : Prop :=
  ∀ a b, [a, b, a].Sublist xs → b = a

theorem Clustered.of_sublist
    {ys : List α}
    (h : Clustered ys)
    (hSub : xs.Sublist ys) :
    Clustered xs :=
  fun a b hIn => h a b (hIn.trans hSub)

/- A first element that is not repeated at once. -/
theorem clustered_cons_cons
    (hOther : a ≠ b) :
    Clustered (a :: b :: xs) ↔ a ∉ xs ∧ Clustered (b :: xs) := by
  constructor
  · intro h
    refine ⟨fun hIn => hOther ?_, h.of_sublist (List.sublist_cons_self _ _)⟩
    have hBetween : [a, b, a].Sublist (a :: b :: xs) :=
      .cons_cons a (.cons_cons b (List.singleton_sublist.mpr hIn))
    exact (h a b hBetween).symm
  · rintro ⟨hNot, h⟩ x y hSub
    rcases List.sublist_cons_iff.mp hSub with hSub | ⟨rest, hRest, hSub⟩
    · exact h x y hSub
    · cases hRest
      have hIn : a ∈ b :: xs := hSub.subset (by simp)
      rcases List.mem_cons.mp hIn with hSame | hIn
      · exact absurd hSame hOther
      · exact absurd hIn hNot

/- A first element that is repeated at once. -/
theorem clustered_cons_self :
    Clustered (a :: a :: xs) ↔ Clustered (a :: xs) := by
  refine ⟨fun h => h.of_sublist (List.sublist_cons_self _ _), ?_⟩
  intro h x y hSub
  rcases List.sublist_cons_iff.mp hSub with hSub | ⟨rest, hRest, hSub⟩
  · exact h x y hSub
  · cases hRest
    rcases List.sublist_cons_iff.mp hSub with hSub | ⟨rest, hRest, -⟩
    · exact h a y (hSub.cons_cons a)
    · cases hRest
      rfl

/- Elements that occur in both orders are not side by side. -/
theorem Clustered.not_both_orders
    (h : Clustered xs)
    (hOther : a ≠ b)
    (hOne : [a, b].Sublist xs) :
    ¬ [b, a].Sublist xs := by
  induction xs with
  | nil => exact absurd hOne.length_le (by simp)
  | cons x xs ih =>
      intro hTwo
      rcases List.sublist_cons_iff.mp hOne with hIn | ⟨rest, hFirst, -⟩
      · rcases List.sublist_cons_iff.mp hTwo with hIn' | ⟨rest, hFirst, -⟩
        · exact ih (h.of_sublist (List.sublist_cons_self _ _)) hIn hIn'
        · rw [← (List.cons.inj hFirst).1] at h
          exact hOther (h b a (hIn.cons_cons b))
      · rw [← (List.cons.inj hFirst).1] at h hTwo
        rcases List.sublist_cons_iff.mp hTwo with hIn | ⟨rest, hFirst', -⟩
        · exact hOther (h a b (hIn.cons_cons a)).symm
        · exact hOther (List.cons.inj hFirst').1.symm

/-
  Sorting by a number puts equal elements side by side, unless
  there is another one of their number between them.
-/
theorem clustered_sortedBy_iff
    {f : α → Nat} :
    Clustered (sortedBy f xs) ↔
      ∀ a b, [a, b, a].Sublist xs → f b = f a → b = a := by
  constructor
  · intro h a b hSub hSame
    apply h a b
    rw [sublist_sortedBy_iff (n := f a) (by simp [hSame])]
    exact hSub
  · intro h a b hSub
    have hUp := (pairwise_sortedBy f xs).sublist hSub
    simp only [List.pairwise_cons, List.mem_cons, List.not_mem_nil,
      or_false, forall_eq_or_imp, forall_eq] at hUp
    have hSame : f b = f a := Nat.le_antisymm hUp.2.1 hUp.1.1
    apply h a b _ hSame
    rw [← sublist_sortedBy_iff (f := f) (n := f a) (by simp [hSame])]
    exact hSub

variable [DecidableEq α]

/- What is met first stands before what is met later. -/
theorem pair_sublist_of_idxOf_lt
    (hFirst : xs.idxOf a < xs.idxOf b)
    (hIn : b ∈ xs) :
    [a, b].Sublist xs := by
  induction xs with
  | nil => cases hIn
  | cons x xs ih =>
      by_cases hHead : x = a
      · subst hHead
        have hOther : b ≠ x := by
          rintro rfl
          exact Nat.lt_irrefl _ hFirst
        have hTail := (List.mem_cons.mp hIn).resolve_left hOther
        exact (List.singleton_sublist.mpr hTail).cons_cons x
      · rw [List.idxOf_cons_ne _ hHead] at hFirst
        have hOther : x ≠ b := by
          rintro rfl
          rw [List.idxOf_cons_self] at hFirst
          exact Nat.not_lt_zero _ hFirst
        rw [List.idxOf_cons_ne _ hOther] at hFirst
        have hTail := (List.mem_cons.mp hIn).resolve_left (Ne.symm hOther)
        exact (ih (Nat.lt_of_succ_lt_succ hFirst) hTail).cons x

/- The loop that merges neighbours collects what it keeps. -/
theorem eraseRepsBy_loop_eq
    (a : α)
    (xs acc : List α) :
    List.eraseRepsBy.loop (· == ·) a xs acc =
      acc.reverse ++ List.eraseRepsBy.loop (· == ·) a xs [] := by
  induction xs generalizing a acc with
  | nil => simp [List.eraseRepsBy.loop]
  | cons b xs ih =>
      unfold List.eraseRepsBy.loop
      split
      · exact ih a acc
      · rw [ih b (a :: acc), ih b [a]]
        simp

theorem eraseReps_cons_cons :
    (a :: b :: xs).eraseReps =
      if a = b then (b :: xs).eraseReps else a :: (b :: xs).eraseReps := by
  unfold List.eraseReps List.eraseRepsBy
  simp only
  rw [List.eraseRepsBy.loop]
  split
  · rename_i hSame
    rw [if_pos (beq_iff_eq.mp hSame), beq_iff_eq.mp hSame]
  · rename_i hOther
    rw [if_neg (by simpa using hOther), eraseRepsBy_loop_eq]
    rfl

/- Merging neighbours loses no element. -/
theorem mem_eraseReps :
    a ∈ xs.eraseReps ↔ a ∈ xs := by
  induction xs with
  | nil => rfl
  | cons b xs ih =>
      cases xs with
      | nil => rfl
      | cons c xs =>
          rw [eraseReps_cons_cons]
          split
          · rename_i hSame
            rw [ih, hSame]
            simp
          · rw [List.mem_cons, ih, ← List.mem_cons]

/- Merging neighbours keeps the order. -/
theorem eraseReps_sublist
    (xs : List α) :
    xs.eraseReps.Sublist xs := by
  induction xs with
  | nil => exact .slnil
  | cons b xs ih =>
      cases xs with
      | nil => exact .refl _
      | cons c xs =>
          rw [eraseReps_cons_cons]
          split
          · exact ih.cons b
          · exact ih.cons_cons b

/-
  Merging neighbours leaves no repetition just if equal
  elements stand side by side.
-/
theorem nodup_eraseReps_iff :
    xs.eraseReps.Nodup ↔ Clustered xs := by
  induction xs with
  | nil => exact iff_of_true List.nodup_nil nofun
  | cons a xs ih =>
      cases xs with
      | nil =>
          refine iff_of_true (List.nodup_singleton a) fun x y hSub => ?_
          have hLength := hSub.length_le
          simp at hLength
      | cons b xs =>
          rw [eraseReps_cons_cons]
          split
          · rename_i hSame
            rw [ih, hSame, clustered_cons_self]
          · rename_i hOther
            rw [List.nodup_cons, ih, mem_eraseReps,
              clustered_cons_cons hOther, List.mem_cons, not_or,
              and_iff_right hOther]

end MatchCompiler

------------------------------------------------------------
-- Suggested Names
------------------------------------------------------------

namespace MatchCompiler

namespace Suggestion

variable {threshold : Nat}
variable {name : String}
variable {candidates : List String}

/- By how many bytes the lengths of two texts differ. -/
def byteGap (a b : String) : Nat :=
  max a.utf8ByteSize b.utf8ByteSize - min a.utf8ByteSize b.utf8ByteSize

/- Another name within the threshold. -/
structure Near
    (threshold : Nat)
    (name c : String) : Prop where
  other : c ≠ name
  close : distance name c ≤ threshold

/-
  What is asked of suggestions: all near candidates and
  nothing else, each once, closer ones first and equally close
  ones by their first place among the candidates.
-/
structure Ranks
    (threshold : Nat)
    (name : String)
    (candidates suggested : List String) : Prop where
  nodup : suggested.Nodup
  mem_iff : ∀ c, c ∈ suggested ↔ c ∈ candidates ∧ Near threshold name c
  ordered :
    suggested.Pairwise fun a b =>
      distance name a < distance name b ∨
        distance name a = distance name b ∧
          candidates.idxOf a < candidates.idxOf b

/- The candidates that are not passed over. -/
def considered
    (threshold : Nat)
    (name : String)
    (candidates : List String) : List String :=
  candidates.filter fun c =>
    c ≠ name ∧ byteGap name c ≤ threshold ∧ distance name c ≤ threshold

theorem mem_considered
    {c : String} :
    c ∈ considered threshold name candidates ↔
      c ∈ candidates ∧ Near threshold name c ∧
        byteGap name c ≤ threshold := by
  unfold considered
  rw [List.mem_filter, decide_eq_true_eq]
  constructor
  · rintro ⟨hIn, hOther, hBytes, hClose⟩
    exact ⟨hIn, ⟨hOther, hClose⟩, hBytes⟩
  · rintro ⟨hIn, ⟨hOther, hClose⟩, hBytes⟩
    exact ⟨hIn, hOther, hBytes, hClose⟩

/- A candidate that is considered has its distance as score. -/
theorem score?_eq
    (c : String) :
    score? name threshold c =
      if byteGap name c ≤ threshold ∧ distance name c ≤ threshold then
        some (distance name c, c)
      else
        none := by
  simp only [score?, byteGap, Bool.and_eq_true, decide_eq_true_eq]
  congr

/- The candidates that have a score, with their scores. -/
theorem filterMap_score?
    (candidates : List String) :
    (candidates.filter (· != name)).filterMap (score? name threshold) =
      (considered threshold name candidates).map
        (fun c => (distance name c, c)) := by
  unfold considered
  induction candidates with
  | nil => rfl
  | cons c candidates ih =>
      by_cases hOther : c = name
      · rw [List.filter_cons_of_neg (by simpa using hOther), ih,
          List.filter_cons_of_neg (by simp [hOther])]
      · rw [List.filter_cons_of_pos (by simpa using hOther),
          List.filterMap_cons, score?_eq, ih]
        by_cases hKept : byteGap name c ≤ threshold ∧
            distance name c ≤ threshold
        · rw [if_pos hKept, List.filter_cons_of_pos, List.map_cons]
          exact decide_eq_true ⟨hOther, hKept⟩
        · rw [if_neg hKept, List.filter_cons_of_neg]
          rw [decide_eq_true_eq]
          exact fun h => hKept h.2

/- Suggestions are what was considered, sorted and merged. -/
theorem similarWithin_eq
    (hName : name ≠ "")
    (candidates : List String) :
    similarWithin threshold name candidates =
      (sortedBy (distance name)
        (considered threshold name candidates)).eraseReps := by
  have hSorted :=
    List.map_mergeSort
      (r := fun a b => decide (distance name a ≤ distance name b))
      (s := fun (x y : Nat × String) => decide (x.1 ≤ y.1))
      (f := fun c => (distance name c, c))
      (l := considered threshold name candidates)
      (fun _ _ _ _ => rfl)
  unfold similarWithin
  rw [if_neg (by simpa using hName)]
  simp only [filterMap_score?, ← hSorted, List.map_map]
  congr 1
  exact List.map_id _

theorem mem_similarWithin
    (hName : name ≠ "")
    {c : String} :
    c ∈ similarWithin threshold name candidates ↔
      c ∈ candidates ∧ Near threshold name c ∧
        byteGap name c ≤ threshold := by
  rw [similarWithin_eq hName, mem_eraseReps, List.mem_mergeSort,
    mem_considered]

/- Closer names come first. -/
theorem pairwise_similarWithin
    (hName : name ≠ "")
    (candidates : List String) :
    (similarWithin threshold name candidates).Pairwise
      (fun a b => distance name a ≤ distance name b) := by
  rw [similarWithin_eq hName]
  exact (pairwise_sortedBy _ _).sublist (eraseReps_sublist _)

/- Near candidates are not passed over if their bytes are few. -/
theorem sublist_considered
    {cs : List String}
    (hSub : cs.Sublist candidates)
    (hNear : ∀ c ∈ cs, Near threshold name c ∧
      byteGap name c ≤ threshold) :
    cs.Sublist (considered threshold name candidates) := by
  have hAll : considered threshold name cs = cs := by
    unfold considered
    rw [List.filter_eq_self]
    intro c hc
    rcases hNear c hc with ⟨⟨hOther, hClose⟩, hBytes⟩
    exact decide_eq_true ⟨hOther, hBytes, hClose⟩
  rw [← hAll]
  exact hSub.filter _

/-
  There are no repetitions just if no candidate is listed
  again after another one that is equally close.
-/
theorem nodup_similarWithin_iff
    (hName : name ≠ "")
    (candidates : List String) :
    (similarWithin threshold name candidates).Nodup ↔
      ∀ a b, [a, b, a].Sublist candidates →
        Near threshold name a → byteGap name a ≤ threshold →
        Near threshold name b → byteGap name b ≤ threshold →
        distance name b = distance name a → b = a := by
  rw [similarWithin_eq hName, nodup_eraseReps_iff, clustered_sortedBy_iff]
  constructor
  · intro h a b hSub hA hA' hB hB'
    apply h a b
    exact sublist_considered hSub (by simp [hA, hA', hB, hB'])
  · intro h a b hSub
    have hKept :
        ∀ c ∈ [a, b, a], Near threshold name c ∧
          byteGap name c ≤ threshold :=
      fun c hc => (mem_considered.mp (hSub.subset hc)).2
    have hA := hKept a (by simp)
    have hB := hKept b (by simp)
    exact h a b (hSub.trans List.filter_sublist) hA.1 hA.2 hB.1 hB.2

/- Without repetitions, equally close names keep their order. -/
theorem idxOf_lt_of_nodup
    (hName : name ≠ "")
    (hNodup : (similarWithin threshold name candidates).Nodup)
    {a b : String}
    (hSub : [a, b].Sublist (similarWithin threshold name candidates))
    (hSame : distance name a = distance name b) :
    candidates.idxOf a < candidates.idxOf b := by
  have hOther : a ≠ b := by simpa using hNodup.sublist hSub
  have hA := (mem_similarWithin hName).mp
    (hSub.subset (show a ∈ [a, b] by simp))
  have hB := (mem_similarWithin hName).mp
    (hSub.subset (show b ∈ [a, b] by simp))
  rw [similarWithin_eq hName] at hNodup hSub
  have hSorted := hSub.trans (eraseReps_sublist _)
  by_contra hNot
  have hLt : candidates.idxOf b < candidates.idxOf a := by
    refine Nat.lt_of_le_of_ne (Nat.le_of_not_lt hNot) fun hEq => hOther ?_
    exact ((List.idxOf_inj hB.1).mp hEq).symm
  apply (nodup_eraseReps_iff.mp hNodup).not_both_orders hOther hSorted
  rw [sublist_sortedBy_iff (n := distance name a) (by simp [hSame])]
  exact sublist_considered (pair_sublist_of_idxOf_lt hLt hA.1)
    (by simp [hA.2, hB.2])

/-
  What is suggested for a name are the near candidates of
  about as many bytes, closer ones first. This is all that is
  asked of suggestions just if no near candidate differs from
  the name by more bytes than the threshold, and no near
  candidate is listed again after another one that is equally
  close.
-/
theorem suggestions_for_name
    (hName : name ≠ "")
    (threshold : Nat)
    (candidates : List String) :
    (∀ c, c ∈ similarWithin threshold name candidates ↔
      c ∈ candidates ∧ Near threshold name c ∧
        byteGap name c ≤ threshold) ∧
    (similarWithin threshold name candidates).Pairwise
      (fun a b => distance name a ≤ distance name b) ∧
    (Ranks threshold name candidates
        (similarWithin threshold name candidates) ↔
      (∀ c ∈ candidates, Near threshold name c →
        byteGap name c ≤ threshold) ∧
      ∀ a b, [a, b, a].Sublist candidates →
        Near threshold name a → Near threshold name b →
        distance name b = distance name a → b = a) := by
  have hMem :
      ∀ c, c ∈ similarWithin threshold name candidates ↔
        c ∈ candidates ∧ Near threshold name c ∧
          byteGap name c ≤ threshold :=
    fun _ => mem_similarWithin hName
  have hUp :
      (similarWithin threshold name candidates).Pairwise
        (fun a b => distance name a ≤ distance name b) :=
    pairwise_similarWithin hName candidates
  refine ⟨hMem, hUp, ?_, ?_⟩
  · intro hRanks
    have hBytes :
        ∀ c ∈ candidates, Near threshold name c →
          byteGap name c ≤ threshold :=
      fun c hIn hNear =>
        ((hMem c).mp ((hRanks.mem_iff c).mpr ⟨hIn, hNear⟩)).2.2
    refine ⟨hBytes, fun a b hSub hA hB => ?_⟩
    have hInA : a ∈ candidates := hSub.subset (by simp)
    have hInB : b ∈ candidates := hSub.subset (by simp)
    exact (nodup_similarWithin_iff hName candidates).mp hRanks.nodup a b
      hSub hA (hBytes a hInA hA) hB (hBytes b hInB hB)
  · rintro ⟨hBytes, hBetween⟩
    have hNodup :=
      (nodup_similarWithin_iff hName candidates).mpr
        fun a b hSub hA _ hB _ => hBetween a b hSub hA hB
    refine ⟨hNodup, fun c => ?_, ?_⟩
    · rw [hMem c]
      constructor
      · exact fun ⟨hIn, hNear, _⟩ => ⟨hIn, hNear⟩
      · exact fun ⟨hIn, hNear⟩ => ⟨hIn, hNear, hBytes c hIn hNear⟩
    · rw [List.pairwise_iff_forall_sublist]
      intro a b hSub
      have hLe := List.pairwise_iff_forall_sublist.mp hUp hSub
      rcases Nat.lt_or_eq_of_le hLe with hLt | hSame
      · exact .inl hLt
      · exact .inr ⟨hSame, idxOf_lt_of_nodup hName hNodup hSub hSame⟩

/- A name that is listed twice, and one with a wide character. -/
def listedAgain : List String :=
  ["ab", "ac", "ab", "a日"]

/- The repetition is suggested, the wide name is passed over. -/
theorem listedAgain_not_ranked :
    similarWithin 1 "aa" listedAgain = ["ab", "ac", "ab"] ∧
    distance "aa" "a日" = 1 ∧
    ¬ Ranks 1 "aa" listedAgain (similarWithin 1 "aa" listedAgain) := by
  have hConsidered :
      considered 1 "aa" listedAgain = ["ab", "ac", "ab"] := by
    decide +kernel
  have hSuggested :
      similarWithin 1 "aa" listedAgain = ["ab", "ac", "ab"] := by
    rw [similarWithin_eq (by decide), hConsidered, sortedBy,
      List.mergeSort_of_pairwise (by decide +kernel)]
    decide
  refine ⟨hSuggested, by decide +kernel, fun hRanks => ?_⟩
  rw [hSuggested] at hRanks
  exact absurd hRanks.nodup (by decide)

/- Names of several distances, one of them listed twice. -/
def listedTogether : List String :=
  ["bb", "AA", "ab", "ab", "ac"]

/- The repetitions stand side by side and are merged. -/
theorem listedTogether_ranked :
    "aa" ≠ "" ∧
    Ranks 1 "aa" listedTogether
      (similarWithin 1 "aa" listedTogether) ∧
    "AA" ∈ similarWithin 1 "aa" listedTogether ∧
    "bb" ∉ similarWithin 1 "aa" listedTogether := by
  have hName : "aa" ≠ "" := by decide
  rcases suggestions_for_name hName 1 listedTogether with
    ⟨hMem, -, hRanks⟩
  refine ⟨hName, hRanks.mpr ⟨?_, ?_⟩, ?_, ?_⟩
  · have hBytes : ∀ c ∈ listedTogether, byteGap "aa" c ≤ 1 := by
      decide +kernel
    exact fun c hIn _ => hBytes c hIn
  · intro a b hSub _ _ _
    have hApart :
        ∀ a ∈ listedTogether, ∀ b ∈ listedTogether, b ≠ a →
          ¬ [a, b, a].Sublist listedTogether := by
      decide +kernel
    by_contra hOther
    exact hApart a (hSub.subset (by simp)) b (hSub.subset (by simp)) hOther
      hSub
  · rw [hMem]
    exact ⟨by decide, ⟨by decide, by decide +kernel⟩, by decide +kernel⟩
  · rw [hMem]
    intro h
    exact absurd h.2.1.close (by decide +kernel)

end Suggestion

end MatchCompiler
