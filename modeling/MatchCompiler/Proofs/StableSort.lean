import Mathlib.Data.List.Pairwise

/-
  This file collects what sorting by a number does to a list:
  the numbers go up, and elements of one number stay in the
  order that they had.

  Key theorems include:
    * `pairwise_sortedBy`
    * `filter_sortedBy`
    * `sublist_sortedBy_iff`
-/

------------------------------------------------------------
-- Sorting By A Number
------------------------------------------------------------

namespace MatchCompiler

variable {α : Type}
variable {xs ys : List α}

/- A list sorted by a number, in its own order among equals. -/
abbrev sortedBy
    (f : α → Nat)
    (xs : List α) : List α :=
  xs.mergeSort (fun a b => f a ≤ f b)

/- Numbers are compared transitively. -/
theorem trans_of_key
    (f : α → Nat)
    (a b c : α)
    (hab : decide (f a ≤ f b) = true)
    (hbc : decide (f b ≤ f c) = true) :
    decide (f a ≤ f c) = true := by
  rw [decide_eq_true_eq] at hab hbc ⊢
  exact Nat.le_trans hab hbc

/- Any two elements can be compared by their numbers. -/
theorem total_of_key
    (f : α → Nat)
    (a b : α) :
    (decide (f a ≤ f b) || decide (f b ≤ f a)) = true := by
  rw [Bool.or_eq_true, decide_eq_true_eq, decide_eq_true_eq]
  exact Nat.le_total _ _

theorem pairwise_sortedBy
    (f : α → Nat)
    (xs : List α) :
    (sortedBy f xs).Pairwise (fun a b => f a ≤ f b) :=
  (List.pairwise_mergeSort (trans_of_key f) (total_of_key f) xs).imp
    fun h => of_decide_eq_true h

/- A sublist whose numbers go up is kept. -/
theorem sublist_sortedBy
    {f : α → Nat}
    (h : ys.Sublist xs)
    (hUp : ys.Pairwise (fun a b => f a ≤ f b)) :
    ys.Sublist (sortedBy f xs) :=
  List.sublist_mergeSort (trans_of_key f) (total_of_key f)
    (hUp.imp fun hab => decide_eq_true hab) h

/- The elements of one number keep their order. -/
theorem filter_sortedBy
    (f : α → Nat)
    (n : Nat)
    (xs : List α) :
    (sortedBy f xs).filter (fun a => f a = n) =
      xs.filter (fun a => f a = n) := by
  have hUp :
      (xs.filter (fun a => f a = n)).Pairwise (fun a b => f a ≤ f b) := by
    refine List.pairwise_of_forall_mem_list fun a ha b hb => ?_
    have hA := (List.mem_filter.mp ha).2
    have hB := (List.mem_filter.mp hb).2
    rw [decide_eq_true_eq] at hA hB
    exact Nat.le_of_eq (hA.trans hB.symm)
  have hKept := (sublist_sortedBy List.filter_sublist hUp).filter
    (fun a => f a = n)
  rw [List.filter_filter] at hKept
  simp only [Bool.and_self] at hKept
  refine (hKept.eq_of_length ?_).symm
  exact ((List.mergeSort_perm xs _).filter _).length_eq.symm

/- Which lists of one number are sublists does not change. -/
theorem sublist_sortedBy_iff
    {f : α → Nat}
    {n : Nat}
    (hSame : ∀ a ∈ ys, f a = n) :
    ys.Sublist (sortedBy f xs) ↔ ys.Sublist xs := by
  have hAll : ys.filter (fun a => f a = n) = ys :=
    List.filter_eq_self.mpr fun a ha => decide_eq_true (hSame a ha)
  have hFilter :
      ∀ {zs : List α},
        ys.Sublist zs ↔ ys.Sublist (zs.filter (fun a => f a = n)) := by
    intro zs
    refine ⟨fun h => ?_, fun h => h.trans List.filter_sublist⟩
    rw [← hAll]
    exact h.filter _
  rw [hFilter, filter_sortedBy, ← hFilter]

end MatchCompiler
