import MatchCompiler.Proofs.Plan
import MatchCompiler.Proofs.Simplification

/-
  This file shows how lowering numbers alternations.

  Every part of a plan uses a range of numbers of its own. An
  access that depends on the branch reads numbers of its part
  only, and all branches of an alternation bind the same
  names, so that an alternation whose branches agree on every
  name holds no numbered one, unless it has one branch only.
  Lowered tests are therefore orderly.

  Key definitions include:
    * `Access.Plain`
    * `Plan.Uniform`
    * `Lowered.Tidy`
    * `Lowered.Spaced`

  Key theorems include:
    * `Plan.lower_names`
    * `Lowered.resolve_choice`
    * `Plan.Uniform.tidy`
-/

------------------------------------------------------------
-- Plain Accesses And Uniform Plans
------------------------------------------------------------

namespace MatchCompiler

/- The access does not depend on choices and is no choice. -/
structure Access.Plain (a : Access) : Prop where
  steady : ∀ root c d, a.resolve root c = a.resolve root d
  isPath : ∀ i cs, a ≠ .choice i cs

namespace Plan

/-
  A plan reads plain accesses only, and the branches of every
  alternation bind the same names, each once.
-/
inductive Uniform : Plan → Prop
| test
    {t : Test}
    (hLeaf : t.IsLeaf)
    (hSteady : ∀ root c d, t.reading root c = t.reading root d) :
    Uniform (.test t)
| guard
    (id : GuardId) :
    Uniform (.test (.guard id))
| bind
    (x : String)
    {a : Access}
    {p : Plan}
    (hAccess : a.Plain)
    (hInner : Uniform p) :
    Uniform (.bind x a p)
| alt
    {ps : List Plan}
    (hBranches : ∀ p ∈ ps, Uniform p)
    (hNodup : ∀ p ∈ ps, p.names.Nodup)
    (hSame : ∀ p ∈ ps, ∀ q ∈ ps, p.names ⊆ q.names) :
    Uniform (.alt ps)
| all
    {ps : List Plan}
    (hParts : ∀ p ∈ ps, Uniform p) :
    Uniform (.all ps)

end Plan

end MatchCompiler

------------------------------------------------------------
-- Names
------------------------------------------------------------

namespace MatchCompiler

/- The names of some bindings. -/
def AccessBindings.names (bindings : AccessBindings) : List String :=
  bindings.map Prod.fst

namespace Lowered

/- Joining branches keeps the names of the first. -/
theorem join_names
    (o : LoweringOptions)
    (ls : List Lowered)
    (n : Nat) :
    (join o ls n).1.bindings.names =
      ((ls.head?.map Lowered.bindings).getD []).names := by
  unfold join
  by_cases hEmpty : ls.isEmpty
  · rw [List.isEmpty_iff] at hEmpty
    subst hEmpty
    rfl
  · rw [if_neg hEmpty]
    split
    · rfl
    · unfold AccessBindings.names
      rw [List.map_map]
      apply List.map_congr_left
      rintro ⟨x, a⟩ -
      simp only [Function.comp_apply]
      split <;> rfl

end Lowered

namespace Plan

/- Lowering several plans binds the names of each. -/
theorem lowerAll_names
    {o : LoweringOptions}
    {ps : List Plan}
    (h :
      ∀ p ∈ ps, ∀ n, (p.lower o n).1.bindings.names = p.names)
    (n : Nat) :
    (lowerAll o ps n).1.map (fun l => l.bindings.names) =
      ps.map names := by
  induction ps generalizing n with
  | nil => rfl
  | cons p ps ih =>
      rcases List.forall_mem_cons.mp h with ⟨hHead, hTail⟩
      simp only [lowerAll, List.map_cons, hHead n, ih hTail]

theorem namesOfAll_eq
    (ps : List Plan) :
    namesOfAll ps = ps.flatMap names := by
  induction ps with
  | nil => rfl
  | cons p ps ih => rw [namesOfAll, ih, List.flatMap_cons]

/- Lowering binds the names of the plan. -/
theorem lower_names
    (o : LoweringOptions)
    (p : Plan)
    (n : Nat) :
    (p.lower o n).1.bindings.names = p.names := by
  induction p using partInduction generalizing n with
  | test t => rfl
  | bind x a p ih =>
      change x :: (p.lower o n).1.bindings.names = x :: p.names
      rw [ih]
  | alt ps ih =>
      have hAll := lowerAll_names ih n
      change (Lowered.join o (lowerAll o ps n).1 _).1.bindings.names = _
      rw [Lowered.join_names]
      cases ps with
      | nil => rfl
      | cons p ps =>
          rw [lowerAll] at hAll ⊢
          exact (List.cons.inj hAll).1
  | all ps ih =>
      have hAll := lowerAll_names ih n
      change ((lowerAll o ps n).1.flatMap Lowered.bindings).map _ =
        namesOfAll ps
      rw [namesOfAll_eq, List.map_flatMap, List.flatMap_def,
        List.flatMap_def]
      exact congrArg List.flatten hAll

end Plan

end MatchCompiler

------------------------------------------------------------
-- Choices Between Branches
------------------------------------------------------------

namespace MatchCompiler

namespace Lowered

/- What each branch contributes to the choice for a name. -/
def choicesFrom
    (o : LoweringOptions)
    (x : String)
    (start : Nat)
    (ls : List Lowered) : List Alternative :=
  (ls.zipIdx start).filterMap fun (b, i) =>
    (b.bindings.lookup x).map fun access =>
      .mk i (b.test.simplify o) b.bindings access

theorem choice_eq
    (o : LoweringOptions)
    (id : Nat)
    (ls : List Lowered)
    (x : String) :
    choice o id ls x = .choice id (choicesFrom o x 0 ls) :=
  rfl

theorem choicesFrom_cons
    (o : LoweringOptions)
    (x : String)
    (start : Nat)
    (l : Lowered)
    (ls : List Lowered) :
    choicesFrom o x start (l :: ls) =
      match l.bindings.lookup x with
      | some a =>
          .mk start (l.test.simplify o) l.bindings a ::
            choicesFrom o x (start + 1) ls
      | none => choicesFrom o x (start + 1) ls := by
  unfold choicesFrom
  simp only [List.zipIdx_cons, List.filterMap_cons]
  cases l.bindings.lookup x <;> rfl

/- No branch stands before the first. -/
theorem resolveChoice_of_lt
    (o : LoweringOptions)
    (root : Value)
    (c : Choices)
    (x : String)
    {k start : Nat}
    (h : k < start)
    (ls : List Lowered) :
    Access.resolveChoice root c k (choicesFrom o x start ls) =
      none := by
  induction ls generalizing start with
  | nil => rfl
  | cons l ls ih =>
      have hNext := ih (Nat.lt_succ_of_lt h)
      rw [choicesFrom_cons]
      cases l.bindings.lookup x with
      | none => exact hNext
      | some a =>
          have hNe : (start == k) = false :=
            beq_eq_false_iff_ne.mpr (Nat.ne_of_gt h)
          simp only [Access.resolveChoice, hNe, Bool.false_eq_true,
            if_false]
          exact hNext

/- A choice reads the access of the branch that is noted. -/
theorem resolveChoice_choicesFrom
    (o : LoweringOptions)
    (root : Value)
    (c : Choices)
    (x : String)
    (start k : Nat)
    (ls : List Lowered) :
    Access.resolveChoice root c (start + k)
        (choicesFrom o x start ls) =
      (ls[k]?.bind (fun l => l.bindings.lookup x)).map
        (Access.resolve root c) := by
  induction ls generalizing k start with
  | nil => rfl
  | cons l ls ih =>
      rw [choicesFrom_cons]
      cases k with
      | zero =>
          cases hLookup : l.bindings.lookup x with
          | none =>
              have hNone := resolveChoice_of_lt o root c x
                (Nat.lt_succ_self start) ls
              simpa [hLookup] using hNone
          | some a => simp [Access.resolveChoice, hLookup]
      | succ k =>
          have hNext := ih (start + 1) k
          rw [Nat.add_right_comm, Nat.add_assoc] at hNext
          cases l.bindings.lookup x with
          | none => simpa using hNext
          | some a =>
              have hNe : (start == start + (k + 1)) = false := by
                rw [beq_eq_false_iff_ne]
                omega
              simp only [Access.resolveChoice, hNe,
                Bool.false_eq_true, if_false]
              simpa using hNext

/- While a branch is noted, a choice is its access. -/
theorem resolve_choice
    (o : LoweringOptions)
    (root : Value)
    {c : Choices}
    {id k : Nat}
    {ls : List Lowered}
    {l : Lowered}
    {x : String}
    {a : Access}
    (hNoted : c id = some k)
    (hBranch : ls[k]? = some l)
    (hLookup : l.bindings.lookup x = some a) :
    (choice o id ls x).resolve root c = a.resolve root c := by
  have hRead := resolveChoice_choicesFrom o root c x 0 k ls
  rw [Nat.zero_add, hBranch, Option.bind_some, hLookup,
    Option.map_some] at hRead
  simp only [choice_eq, Access.resolve, hNoted, hRead]

end Lowered

end MatchCompiler

------------------------------------------------------------
-- Ranges Of Numbers
------------------------------------------------------------

namespace MatchCompiler

namespace Lowered

/-
  A lowered part uses the numbers from `n` up to, and
  without, `m`: its test notes no others, its accesses read
  no others, and if it notes some then a name shows one.
-/
structure Tidy
    (l : Lowered)
    (n m : Nat) : Prop where
  le : n ≤ m
  noted : ∀ i ∈ l.test.alts, n ≤ i ∧ i < m
  steady :
    ∀ b ∈ l.bindings, ∀ root c d,
      (∀ i, n ≤ i → i < m → c i = d i) →
      b.2.resolve root c = b.2.resolve root d
  chosen :
    ∀ b ∈ l.bindings, ∀ i cs, b.2 = .choice i cs → n ≤ i ∧ i < m
  shown :
    l.test.alts.Nonempty → ∃ b ∈ l.bindings, ∃ i cs, b.2 = .choice i cs
  orderly : ∀ root, l.test.Orderly root l.bindings Set.univ

/- A part is tidy in a larger range too. -/
theorem Tidy.mono
    {l : Lowered}
    {n m n' m' : Nat}
    (h : l.Tidy n m)
    (hn : n' ≤ n)
    (hm : m ≤ m') :
    l.Tidy n' m' where
  le := (hn.trans h.le).trans hm
  noted := fun i hi =>
    ⟨hn.trans (h.noted i hi).1, (h.noted i hi).2.trans_le hm⟩
  steady := fun b hb root c d hSame =>
    h.steady b hb root c d fun i hni him =>
      hSame i (hn.trans hni) (him.trans_le hm)
  chosen := fun b hb i cs hEq =>
    ⟨hn.trans (h.chosen b hb i cs hEq).1,
      (h.chosen b hb i cs hEq).2.trans_le hm⟩
  shown := h.shown
  orderly := h.orderly

/-
  Lowered parts have ranges one after the other: that of part
  `j` starts at `f j` and ends where the next one starts.
-/
structure Spaced
    (ls : List Lowered)
    (n m : Nat)
    (f : Nat → Nat) : Prop where
  mono : ∀ {j k : Nat}, j ≤ k → f j ≤ f k
  first : f 0 = n
  last : f ls.length = m
  tidy :
    ∀ {j : Nat} {l : Lowered},
      ls[j]? = some l → l.Tidy (f j) (f (j + 1))

namespace Spaced

variable {ls : List Lowered}
variable {n m : Nat}
variable {f : Nat → Nat}

/- Ranges of two parts have no number in common. -/
theorem apart
    (h : Spaced ls n m f)
    {j k i : Nat}
    (hNe : j ≠ k)
    (hj : f j ≤ i ∧ i < f (j + 1))
    (hk : f k ≤ i ∧ i < f (k + 1)) :
    False := by
  rcases Nat.lt_or_gt_of_ne hNe with hLt | hLt
  · have hMono : f (j + 1) ≤ f k := h.mono hLt
    omega
  · have hMono : f (k + 1) ≤ f j := h.mono hLt
    omega

/- The range of a part lies in the whole. -/
theorem within
    (h : Spaced ls n m f)
    {j : Nat}
    {l : Lowered}
    (hl : ls[j]? = some l) :
    n ≤ f j ∧ f (j + 1) ≤ m := by
  have hLt := (List.getElem?_eq_some_iff.mp hl).1
  rw [← h.first, ← h.last]
  exact ⟨h.mono (Nat.zero_le j), h.mono (Nat.succ_le_of_lt hLt)⟩

theorem le
    (h : Spaced ls n m f) :
    n ≤ m := by
  rw [← h.first, ← h.last]
  exact h.mono (Nat.zero_le _)

/- One part in front of others moves their ranges. -/
theorem cons
    {l : Lowered}
    {k : Nat}
    (hHead : l.Tidy k n)
    (hTail : Spaced ls n m f) :
    Spaced (l :: ls) k m
      (fun j => match j with | 0 => k | j + 1 => f j) where
  mono := by
    intro i j hij
    cases i with
    | zero =>
        cases j with
        | zero => exact Nat.le_refl k
        | succ j =>
            have hFirst := hTail.first
            have hMono := hTail.mono (Nat.zero_le j)
            have hLe := hHead.le
            change k ≤ f j
            omega
    | succ i =>
        cases j with
        | zero => cases hij
        | succ j => exact hTail.mono (Nat.le_of_succ_le_succ hij)
  first := rfl
  last := hTail.last
  tidy := by
    intro j l' hl
    cases j with
    | zero =>
        cases hl
        change l.Tidy k (f 0)
        rw [hTail.first]
        exact hHead
    | succ j => exact hTail.tidy hl

end Spaced

end Lowered

/- Plans whose lowered forms are tidy are spaced. -/
theorem Plan.exists_spaced
    {o : LoweringOptions}
    {ps : List Plan}
    (h :
      ∀ p ∈ ps, ∀ n, (p.lower o n).1.Tidy n (p.lower o n).2)
    (n : Nat) :
    ∃ f, Lowered.Spaced (lowerAll o ps n).1 n (lowerAll o ps n).2 f := by
  induction ps generalizing n with
  | nil =>
      exact ⟨fun _ => n, fun _ => Nat.le_refl n, rfl, rfl, nofun⟩
  | cons p ps ih =>
      rcases List.forall_mem_cons.mp h with ⟨hHead, hTail⟩
      rcases ih hTail (p.lower o n).2 with ⟨f, hf⟩
      exact ⟨_, hf.cons (hHead n)⟩

end MatchCompiler

------------------------------------------------------------
-- Orderly Tests Under More Bindings
------------------------------------------------------------

namespace MatchCompiler

namespace Test

/- A leaf has no alternation. -/
theorem IsLeaf.alts_eq
    {t : Test}
    (h : t.IsLeaf) :
    t.alts = ∅ := by
  cases t <;> first | exact h.elim | rfl

/-
  A test stays orderly under bindings that show of its
  alternations only what others show.
-/
theorem Orderly.transfer
    {root : Value}
    {bindings others : AccessBindings}
    {U : Set Nat}
    {t : Test}
    (h : t.Orderly root bindings U)
    (hShow :
      ∀ c d, Choices.SameOutside t.alts c d →
        bindings.ReadAlike root c d → others.ReadAlike root c d) :
    t.Orderly root others U := by
  induction h with
  | and hTests hApart ih =>
      refine .and (fun t ht => ih t ht fun c d hSame => ?_) hApart
      exact hShow c d (hSame.mono (alts_subset_altsOfAll ht))
  | or hTests hPlain ih =>
      refine .or (fun t ht => ih t ht fun c d hSame => ?_) hPlain
      exact hShow c d (hSame.mono (alts_subset_altsOfAll ht))
  | one hTest ih =>
      refine .one (ih fun c d hSame => ?_)
      exact hShow c d (hSame.mono Set.subset_union_left)
  | @alt i ts hTests hApart hOwn hHides ih =>
      refine .alt (fun t ht => ih t ht fun c d hSame => ?_) hApart
        hOwn ?_
      · exact hShow c d (hSame.mono
          ((alts_subset_altsOfAll ht).trans (Set.subset_insert i _)))
      · intro c d hi hDiffer
        refine hShow c d (fun j hj => ?_) (hHides c d hi hDiffer)
        rcases hDiffer j with hEq | ⟨k, t, hk, hjt, -⟩
        · exact hEq
        · have hMem := List.mem_of_getElem? hk
          exact absurd
            (Or.inr (alts_subset_altsOfAll hMem hjt)) hj
  | guard id => exact .guard id
  | leaf hLeaf hSame => exact .leaf hLeaf hSame

end Test

end MatchCompiler

------------------------------------------------------------
-- Tests, Names And Conjunctions
------------------------------------------------------------

namespace MatchCompiler

namespace Lowered

/- A test without alternations and names is tidy. -/
theorem tidy_ofTest
    {t : Test}
    (hAlts : t.alts = ∅)
    (hOrderly : ∀ root, t.Orderly root [] Set.univ)
    (n : Nat) :
    (ofTest t).Tidy n n where
  le := Nat.le_refl n
  noted := by
    intro i hi
    change i ∈ t.alts at hi
    rw [hAlts] at hi
    cases hi
  steady := nofun
  chosen := nofun
  shown := by
    intro hSome
    change t.alts.Nonempty at hSome
    rw [hAlts] at hSome
    exact absurd hSome Set.not_nonempty_empty
  orderly := hOrderly

/- A name for a plain access keeps a part tidy. -/
theorem Tidy.bind
    {l : Lowered}
    {n m : Nat}
    (h : l.Tidy n m)
    (x : String)
    {a : Access}
    (ha : a.Plain) :
    Tidy { l with bindings := (x, a) :: l.bindings } n m where
  le := h.le
  noted := h.noted
  steady := by
    intro b hb root c d hSame
    rcases List.mem_cons.mp hb with rfl | hMem
    · exact ha.steady root c d
    · exact h.steady b hMem root c d hSame
  chosen := by
    intro b hb i cs hEq
    rcases List.mem_cons.mp hb with rfl | hMem
    · exact absurd hEq (ha.isPath i cs)
    · exact h.chosen b hMem i cs hEq
  shown := by
    intro hSome
    rcases h.shown hSome with ⟨b, hb, hChoice⟩
    exact ⟨b, List.mem_cons_of_mem _ hb, hChoice⟩
  orderly := by
    intro root
    refine (h.orderly root).transfer fun c d _ hRead => ?_
    exact List.forall_mem_cons.mpr ⟨ha.steady root c d, hRead⟩

namespace Spaced

variable {ls : List Lowered}
variable {n m : Nat}
variable {f : Nat → Nat}

/- A number noted by a part lies in its range. -/
theorem noted_iff
    (h : Spaced ls n m f)
    {i : Nat}
    (hi : i ∈ Test.altsOfAll (ls.map Lowered.test)) :
    ∃ j l, ls[j]? = some l ∧ i ∈ l.test.alts ∧
      f j ≤ i ∧ i < f (j + 1) := by
  rcases Test.mem_altsOfAll.mp hi with ⟨t, ht, hit⟩
  rcases List.mem_map.mp ht with ⟨l, hl, rfl⟩
  rcases List.getElem?_of_mem hl with ⟨j, hj⟩
  exact ⟨j, l, hj, hit, (h.tidy hj).noted i hit⟩

/- The tests of the parts have no alternation in common. -/
theorem apart_tests
    (h : Spaced ls n m f) :
    Test.Apart (ls.map Lowered.test) := by
  unfold Test.Apart
  rw [List.pairwise_iff_getElem]
  intro j k hj hk hLt
  rw [Set.disjoint_left]
  intro i hij hik
  rw [List.getElem_map] at hij hik
  rw [List.length_map] at hj hk
  exact h.apart (Nat.ne_of_lt hLt)
    ((h.tidy (List.getElem?_eq_getElem hj)).noted i hij)
    ((h.tidy (List.getElem?_eq_getElem hk)).noted i hik)

/-
  A part does not read what is noted inside another part.
-/
theorem steady_of_ne
    (h : Spaced ls n m f)
    {j k : Nat}
    {l l' : Lowered}
    (hj : ls[j]? = some l)
    (hk : ls[k]? = some l')
    (hNe : j ≠ k)
    {c d : Choices}
    (hSame : Choices.SameOutside l.test.alts c d)
    (root : Value) :
    l'.bindings.ReadAlike root c d := by
  intro b hb
  refine (h.tidy hk).steady b hb root c d fun i hLow hHigh => ?_
  refine hSame i fun hi => ?_
  exact h.apart hNe ((h.tidy hj).noted i hi) ⟨hLow, hHigh⟩

/- A conjunction of parts is tidy. -/
theorem tidy_conjunction
    (h : Spaced ls n m f) :
    (conjunction [] ls).Tidy n m where
  le := h.le
  noted := by
    intro i hi
    rcases h.noted_iff hi with ⟨j, l, hj, -, hLow, hHigh⟩
    have hIn := h.within hj
    omega
  steady := by
    intro b hb root c d hSame
    rcases List.mem_flatMap.mp hb with ⟨l, hl, hbl⟩
    rcases List.getElem?_of_mem hl with ⟨j, hj⟩
    have hIn := h.within hj
    refine (h.tidy hj).steady b hbl root c d fun i hLow hHigh => ?_
    exact hSame i (by omega) (by omega)
  chosen := by
    intro b hb i cs hEq
    rcases List.mem_flatMap.mp hb with ⟨l, hl, hbl⟩
    rcases List.getElem?_of_mem hl with ⟨j, hj⟩
    have hIn := h.within hj
    have hRange := (h.tidy hj).chosen b hbl i cs hEq
    omega
  shown := by
    rintro ⟨i, hi⟩
    rcases h.noted_iff hi with ⟨j, l, hj, hil, -⟩
    rcases (h.tidy hj).shown ⟨i, hil⟩ with ⟨b, hb, hChoice⟩
    have hMem := List.mem_of_getElem? hj
    exact ⟨b, List.mem_flatMap.mpr ⟨l, hMem, hb⟩, hChoice⟩
  orderly := by
    intro root
    refine .and (fun t ht => ?_) h.apart_tests
    rcases List.mem_map.mp ht with ⟨l, hl, rfl⟩
    rcases List.getElem?_of_mem hl with ⟨j, hj⟩
    refine ((h.tidy hj).orderly root).transfer fun c d hSame hRead => ?_
    intro b hb
    rcases List.mem_flatMap.mp hb with ⟨l', hl', hbl⟩
    rcases List.getElem?_of_mem hl' with ⟨k, hk⟩
    by_cases hEq : j = k
    · subst hEq
      rw [hj] at hk
      cases hk
      exact hRead b hbl
    · exact h.steady_of_ne hj hk hEq hSame root b hbl

end Spaced

end Lowered

end MatchCompiler

------------------------------------------------------------
-- Alternations
------------------------------------------------------------

namespace MatchCompiler

/- A binding of a name that is bound once is found. -/
theorem lookup_eq_of_mem
    {β : Type}
    {bindings : List (String × β)}
    (hNodup : (bindings.map Prod.fst).Nodup)
    {x : String}
    {a : β}
    (h : (x, a) ∈ bindings) :
    bindings.lookup x = some a := by
  induction bindings with
  | nil => cases h
  | cons b bs ih =>
      rcases List.nodup_cons.mp hNodup with ⟨hFresh, hRest⟩
      rw [List.lookup_cons]
      rcases List.mem_cons.mp h with rfl | hMem
      · simp
      · have hNe : (x == b.1) = false := by
          rw [beq_eq_false_iff_ne]
          rintro rfl
          exact hFresh (List.mem_map.mpr ⟨_, hMem, rfl⟩)
        rw [hNe]
        exact ih hRest hMem

/- A name that is bound is found. -/
theorem exists_lookup_of_mem
    {β : Type}
    {bindings : List (String × β)}
    (hNodup : (bindings.map Prod.fst).Nodup)
    {x : String}
    (h : x ∈ bindings.map Prod.fst) :
    ∃ a, (x, a) ∈ bindings ∧ bindings.lookup x = some a := by
  rcases List.mem_map.mp h with ⟨⟨y, a⟩, hMem, rfl⟩
  exact ⟨a, hMem, lookup_eq_of_mem hNodup hMem⟩

/- What is found is bound. -/
theorem mem_of_lookup_eq
    {β : Type}
    {bindings : List (String × β)}
    {x : String}
    {a : β}
    (h : bindings.lookup x = some a) :
    (x, a) ∈ bindings := by
  induction bindings with
  | nil => cases h
  | cons b bs ih =>
      rw [List.lookup_cons] at h
      split at h
      · rename_i hEq
        cases h
        rw [beq_iff_eq] at hEq
        subst hEq
        exact List.mem_cons_self
      · exact List.mem_cons_of_mem b (ih h)

namespace Lowered

/- All parts bind the same names, each once. -/
structure SameNames (ls : List Lowered) : Prop where
  nodup : ∀ l ∈ ls, l.bindings.names.Nodup
  subset : ∀ l ∈ ls, ∀ l' ∈ ls, l.bindings.names ⊆ l'.bindings.names

/- Branches that agree on a name bind it to one access. -/
theorem lookup_of_agreeOn
    {ls : List Lowered}
    (hNames : SameNames ls)
    {l l' : Lowered}
    (hl : l ∈ ls)
    (hl' : l' ∈ ls)
    {x : String}
    {a : Access}
    (hMem : (x, a) ∈ l.bindings)
    (hAgree : agreeOn ls x a = true) :
    (x, a) ∈ l'.bindings := by
  have hx : x ∈ l'.bindings.names :=
    hNames.subset l hl l' hl' (List.mem_map.mpr ⟨_, hMem, rfl⟩)
  rcases exists_lookup_of_mem (hNames.nodup l' hl') hx with
    ⟨a', hMem', hLookup⟩
  have hSame := List.all_eq_true.mp hAgree l' hl'
  rw [hLookup, Option.all_some] at hSame
  rw [← Access.eq_of_beq hSame]
  exact hMem'

/-
  Branches are joined without a number if they agree on every
  name, and with one if they differ on some name.
-/
theorem join_cases
    (o : LoweringOptions)
    (l₀ : Lowered)
    (ls : List Lowered)
    (m : Nat) :
    (∀ b ∈ l₀.bindings, agreeOn (l₀ :: ls) b.1 b.2 = true) ∧
      join o (l₀ :: ls) m =
        ({ test := .or ((l₀ :: ls).map Lowered.test)
           bindings := l₀.bindings }, m) ∨
    (∃ b ∈ l₀.bindings, agreeOn (l₀ :: ls) b.1 b.2 = false) ∧
      join o (l₀ :: ls) m =
        ({ test := .alt m ((l₀ :: ls).map Lowered.test)
           bindings := l₀.bindings.map fun (x, a) =>
             if agreeOn (l₀ :: ls) x a then
               (x, a)
             else
               (x, choice o m (l₀ :: ls) x) }, m + 1) := by
  by_cases hAgree :
      l₀.bindings.all (fun (x, a) => agreeOn (l₀ :: ls) x a) = true
  · exact Or.inl ⟨List.all_eq_true.mp hAgree, if_pos hAgree⟩
  · refine Or.inr ⟨?_, if_neg hAgree⟩
    rw [Bool.not_eq_true, List.all_eq_false] at hAgree
    rcases hAgree with ⟨b, hb, hNot⟩
    exact ⟨b, hb, Bool.not_eq_true _ ▸ hNot⟩

namespace Spaced

variable {ls : List Lowered}
variable {n m : Nat}
variable {f : Nat → Nat}

/-
  Branches that agree on every name note no alternation, if
  there are two of them: the name that shows it would be
  bound to one access in both ranges.
-/
theorem alts_eq_empty
    (h : Spaced ls n m f)
    (hNames : SameNames ls)
    {l₀ : Lowered}
    (hFirst : ls[0]? = some l₀)
    (hTwo : 1 < ls.length)
    (hAgree :
      ∀ b ∈ l₀.bindings, agreeOn ls b.1 b.2 = true) :
    Test.altsOfAll (ls.map Lowered.test) = ∅ := by
  rw [Set.eq_empty_iff_forall_notMem]
  intro i hi
  rcases h.noted_iff hi with ⟨j, l, hj, hil, -⟩
  rcases (h.tidy hj).shown ⟨i, hil⟩ with ⟨⟨x, a⟩, hb, i', cs, hEq⟩
  have hl := List.mem_of_getElem? hj
  have hl₀ := List.mem_of_getElem? hFirst
  -- The first branch binds the name, to the same access.
  have hx : x ∈ l₀.bindings.names :=
    hNames.subset l hl l₀ hl₀ (List.mem_map.mpr ⟨_, hb, rfl⟩)
  rcases exists_lookup_of_mem (hNames.nodup l₀ hl₀) hx with
    ⟨a₀, hMem₀, -⟩
  have hOne := hAgree (x, a₀) hMem₀
  have hMemJ := lookup_of_agreeOn hNames hl₀ hl hMem₀ hOne
  have hSame : a₀ = a := by
    have h₁ := lookup_eq_of_mem (hNames.nodup l hl) hMemJ
    have h₂ := lookup_eq_of_mem (hNames.nodup l hl) hb
    rw [h₁] at h₂
    exact Option.some.inj h₂
  subst hSame
  -- So does some branch other than `j`.
  have hOther : ∃ k l', k ≠ j ∧ ls[k]? = some l' := by
    by_cases hj0 : j = 0
    · exact ⟨1, ls[1], by omega, List.getElem?_eq_getElem hTwo⟩
    · exact ⟨0, l₀, by omega, hFirst⟩
  rcases hOther with ⟨k, l', hNe, hk⟩
  have hMemK := lookup_of_agreeOn hNames hl₀
    (List.mem_of_getElem? hk) hMem₀ hOne
  exact h.apart hNe ((h.tidy hk).chosen _ hMemK i' cs hEq)
    ((h.tidy hj).chosen _ hb i' cs hEq)

/-
  An access on which two branches agree reads no choice.
-/
theorem steady_of_agree
    (h : Spaced ls n m f)
    {l₀ l₁ : Lowered}
    (h₀ : ls[0]? = some l₀)
    (h₁ : ls[1]? = some l₁)
    {x : String}
    {a : Access}
    (hMem₀ : (x, a) ∈ l₀.bindings)
    (hMem₁ : (x, a) ∈ l₁.bindings)
    (root : Value)
    (c d : Choices) :
    a.resolve root c = a.resolve root d := by
  let e : Choices := fun i => if i < f 1 then c i else d i
  have hLeft : a.resolve root c = a.resolve root e := by
    refine (h.tidy h₀).steady _ hMem₀ root c e fun i _ hi => ?_
    exact (if_pos hi).symm
  have hRight : a.resolve root e = a.resolve root d := by
    refine (h.tidy h₁).steady _ hMem₁ root e d fun i hi _ => ?_
    exact if_neg (Nat.not_lt.mpr hi)
  exact hLeft.trans hRight

/- Branches that agree on every name are tidy together. -/
theorem tidy_or
    (h : Spaced ls n m f)
    (hNames : SameNames ls)
    {l₀ : Lowered}
    (hFirst : ls[0]? = some l₀)
    (hAgree :
      ∀ b ∈ l₀.bindings, agreeOn ls b.1 b.2 = true) :
    Tidy { test := .or (ls.map Lowered.test)
           bindings := l₀.bindings } n m := by
  have hIn := h.within hFirst
  have hTidy := (h.tidy hFirst).mono hIn.1 hIn.2
  by_cases hTwo : 1 < ls.length
  · have hNone := h.alts_eq_empty hNames hFirst hTwo hAgree
    have hAlts :
        (Test.or (ls.map Lowered.test)).alts = ∅ := hNone
    exact {
      le := hTidy.le
      noted := by
        intro i hi
        rw [hAlts] at hi
        cases hi
      steady := hTidy.steady
      chosen := hTidy.chosen
      shown := by
        intro hSome
        rw [hAlts] at hSome
        exact absurd hSome Set.not_nonempty_empty
      orderly := by
        intro root
        refine .or (fun t ht => ?_) hNone
        rcases List.mem_map.mp ht with ⟨l, hl, rfl⟩
        rcases List.getElem?_of_mem hl with ⟨j, hj⟩
        refine ((h.tidy hj).orderly root).transfer
          fun c d hSame _ b _ => ?_
        have hEmpty : l.test.alts ⊆ ∅ := by
          rw [← hNone]
          exact Test.alts_subset_altsOfAll ht
        rw [(hSame.mono hEmpty).eq_of_empty] }
  · -- One branch alone: the alternation is that branch.
    have hOne : ls = [l₀] := by
      match ls, hFirst with
      | [l], hFirst =>
          cases hFirst
          rfl
      | _ :: _ :: _, _ =>
          exact absurd (by simp) hTwo
    subst hOne
    have hAlts : (Test.or [l₀.test]).alts = l₀.test.alts :=
      Set.union_empty _
    exact {
      le := hTidy.le
      noted := fun i hi => hTidy.noted i (hAlts ▸ hi)
      steady := hTidy.steady
      chosen := hTidy.chosen
      shown := fun hSome => hTidy.shown (hAlts ▸ hSome)
      orderly := fun root => .one (hTidy.orderly root) }

/- The binding of a name in a numbered alternation. -/
theorem resolve_joined
    (h : Spaced ls n m f)
    (hNames : SameNames ls)
    (o : LoweringOptions)
    {l₀ l₁ : Lowered}
    (h₀ : ls[0]? = some l₀)
    (h₁ : ls[1]? = some l₁)
    {b : String × Access}
    (hb : b ∈ l₀.bindings.map fun (x, a) =>
      if agreeOn ls x a then (x, a) else (x, choice o m ls x))
    (root : Value)
    {c d : Choices}
    (hNoted : c m = d m)
    (hRead :
      ∀ k l, c m = some k → ls[k]? = some l →
        l.bindings.ReadAlike root c d) :
    b.2.resolve root c = b.2.resolve root d := by
  rcases List.mem_map.mp hb with ⟨⟨x, a⟩, hMem, rfl⟩
  have hl₀ := List.mem_of_getElem? h₀
  by_cases hAgree : agreeOn ls x a = true
  · simp only [hAgree, if_true]
    have hMem₁ := lookup_of_agreeOn hNames hl₀
      (List.mem_of_getElem? h₁) hMem hAgree
    exact h.steady_of_agree h₀ h₁ hMem hMem₁ root c d
  · simp only [hAgree, Bool.false_eq_true, if_false]
    cases hc : c m with
    | none =>
        rw [hc] at hNoted
        simp only [choice_eq, Access.resolve, hc, ← hNoted]
    | some k =>
        rw [hc] at hNoted
        cases hk : ls[k]? with
        | none =>
            have hNone := fun c =>
              resolveChoice_choicesFrom o root c x 0 k ls
            simp only [Nat.zero_add, hk, Option.bind_none,
              Option.map_none] at hNone
            simp only [choice_eq, Access.resolve, hc, ← hNoted, hNone]
        | some l =>
            have hl := List.mem_of_getElem? hk
            have hx : x ∈ l.bindings.names :=
              hNames.subset l₀ hl₀ l hl (List.mem_map.mpr ⟨_, hMem, rfl⟩)
            rcases exists_lookup_of_mem (hNames.nodup l hl) hx with
              ⟨a', hMem', hLookup⟩
            rw [resolve_choice o root hc hk hLookup,
              resolve_choice o root hNoted.symm hk hLookup]
            exact hRead k l hc hk (x, a') hMem'

/- A numbered alternation is tidy. -/
theorem tidy_alt
    (h : Spaced ls n m f)
    (hNames : SameNames ls)
    (o : LoweringOptions)
    {l₀ l₁ : Lowered}
    (h₀ : ls[0]? = some l₀)
    (h₁ : ls[1]? = some l₁)
    (hDiffer :
      ∃ b ∈ l₀.bindings, agreeOn ls b.1 b.2 = false) :
    Tidy
      { test := .alt m (ls.map Lowered.test)
        bindings := l₀.bindings.map fun (x, a) =>
          if agreeOn ls x a then (x, a) else (x, choice o m ls x) }
      n (m + 1) where
  le := Nat.le_succ_of_le h.le
  noted := by
    intro i hi
    have hLe := h.le
    rcases hi with rfl | hi
    · omega
    · rcases h.noted_iff hi with ⟨j, l, hj, -, hLow, hHigh⟩
      have hIn := h.within hj
      omega
  steady := by
    intro b hb root c d hSame
    have hLe := h.le
    refine h.resolve_joined hNames o h₀ h₁ hb root
      (hSame m hLe (Nat.lt_succ_self m)) fun k l _ hk b' hb' => ?_
    have hIn := h.within hk
    refine (h.tidy hk).steady b' hb' root c d fun i hLow hHigh => ?_
    exact hSame i (by omega) (by omega)
  chosen := by
    intro b hb i cs hEq
    have hLe := h.le
    rcases List.mem_map.mp hb with ⟨⟨x, a⟩, hMem, rfl⟩
    by_cases hAgree : agreeOn ls x a = true
    · simp only [hAgree, if_true] at hEq
      have hIn := h.within h₀
      have hRange := (h.tidy h₀).chosen _ hMem i cs hEq
      omega
    · simp only [hAgree, Bool.false_eq_true, if_false, choice_eq,
        Access.choice.injEq] at hEq
      omega
  shown := by
    intro _
    rcases hDiffer with ⟨⟨x, a⟩, hMem, hAgree⟩
    refine ⟨(x, choice o m ls x), ?_, m, _, choice_eq o m ls x⟩
    refine List.mem_map.mpr ⟨(x, a), hMem, ?_⟩
    simp only [hAgree, Bool.false_eq_true, if_false]
  orderly := by
    intro root
    have hOwn : m ∉ Test.altsOfAll (ls.map Lowered.test) := by
      intro hm
      rcases h.noted_iff hm with ⟨j, l, hj, -, -, hHigh⟩
      have hIn := h.within hj
      omega
    refine .alt (fun t ht => ?_) h.apart_tests hOwn ?_
    · rcases List.mem_map.mp ht with ⟨l, hl, rfl⟩
      rcases List.getElem?_of_mem hl with ⟨j, hj⟩
      refine ((h.tidy hj).orderly root).transfer
        fun c d hSame hRead b hb => ?_
      have hm := hSame m fun hm =>
        hOwn (Test.alts_subset_altsOfAll ht hm)
      refine h.resolve_joined hNames o h₀ h₁ hb root hm
        fun k l' _ hk => ?_
      by_cases hEq : j = k
      · subst hEq
        rw [hj] at hk
        cases hk
        exact hRead
      · exact h.steady_of_ne hj hk hEq hSame root
    · intro c d hm hChange b hb
      refine h.resolve_joined hNames o h₀ h₁ hb root hm
        fun k l hNoted hk b' hb' => ?_
      refine (h.tidy hk).steady b' hb' root c d fun i hLow hHigh => ?_
      -- A number of the noted branch is in no other branch.
      rcases hChange i with hEq | ⟨j, t, hj, hit, hNe⟩
      · exact hEq
      · rw [List.getElem?_map, Option.map_eq_some_iff] at hj
        rcases hj with ⟨l', hj, rfl⟩
        have hjk : j ≠ k := fun hEq => hNe (hEq ▸ hNoted)
        exact absurd ⟨hLow, hHigh⟩
          (h.apart hjk ((h.tidy hj).noted i hit))

/- Joined branches are tidy. -/
theorem tidy_join
    (h : Spaced ls n m f)
    (hNames : SameNames ls)
    (o : LoweringOptions) :
    (join o ls m).1.Tidy n (join o ls m).2 := by
  cases ls with
  | nil =>
      have hNever := tidy_ofTest (t := .never) rfl
        (fun root => .leaf trivial fun _ _ _ => rfl) n
      exact hNever.mono (Nat.le_refl n) h.le
  | cons l₀ ls =>
      rcases join_cases o l₀ ls m with
        ⟨hAgree, hJoin⟩ | ⟨⟨⟨x, a⟩, hb, hNot⟩, hJoin⟩
      · rw [hJoin]
        exact h.tidy_or hNames rfl hAgree
      · rw [hJoin]
        cases ls with
        | nil =>
            -- A single branch agrees with itself.
            have hLookup := lookup_eq_of_mem
              (hNames.nodup l₀ List.mem_cons_self) hb
            have hSelf : agreeOn [l₀] x a = true := by
              simp only [agreeOn, List.all_cons, List.all_nil,
                hLookup, Option.all_some, Bool.and_true]
              exact a.beq_self
            exact absurd hSelf (Bool.eq_false_iff.mp hNot)
        | cons l₁ ls =>
            exact h.tidy_alt hNames o rfl rfl ⟨(x, a), hb, hNot⟩

end Spaced

end Lowered

namespace Plan

/- Branches of a uniform alternation bind the same names. -/
theorem sameNames_lowerAll
    (o : LoweringOptions)
    {ps : List Plan}
    (hNodup : ∀ p ∈ ps, p.names.Nodup)
    (hSame : ∀ p ∈ ps, ∀ q ∈ ps, p.names ⊆ q.names)
    (n : Nat) :
    Lowered.SameNames (lowerAll o ps n).1 := by
  have hNames :
      (lowerAll o ps n).1.map (fun l => l.bindings.names) =
        ps.map names :=
    lowerAll_names (fun p _ => lower_names o p) n
  have hOf :
      ∀ l ∈ (lowerAll o ps n).1,
        ∃ p ∈ ps, p.names = l.bindings.names := by
    intro l hl
    have hMem : l.bindings.names ∈ ps.map names := by
      rw [← hNames]
      exact List.mem_map.mpr ⟨l, hl, rfl⟩
    exact List.mem_map.mp hMem
  constructor
  · intro l hl
    rcases hOf l hl with ⟨p, hp, hEq⟩
    rw [← hEq]
    exact hNodup p hp
  · intro l hl l' hl'
    rcases hOf l hl with ⟨p, hp, hEq⟩
    rcases hOf l' hl' with ⟨q, hq, hEq'⟩
    rw [← hEq, ← hEq']
    exact hSame p hp q hq

/- Uniform plans are lowered to tidy parts. -/
theorem Uniform.tidy
    (o : LoweringOptions)
    {p : Plan}
    (h : p.Uniform)
    (n : Nat) :
    (p.lower o n).1.Tidy n (p.lower o n).2 := by
  induction h generalizing n with
  | test hLeaf hSteady =>
      exact Lowered.tidy_ofTest hLeaf.alts_eq
        (fun root => .leaf hLeaf fun c d _ => hSteady root c d) n
  | guard id => exact Lowered.tidy_ofTest rfl (fun _ => .guard id) n
  | bind x hAccess hInner ih => exact (ih n).bind x hAccess
  | @alt ps hBranches hNodup hSame ih =>
      rcases exists_spaced ih n with ⟨f, hSpaced⟩
      exact hSpaced.tidy_join (sameNames_lowerAll o hNodup hSame n) o
  | all hParts ih =>
      rcases exists_spaced ih n with ⟨f, hSpaced⟩
      exact hSpaced.tidy_conjunction

end Plan

end MatchCompiler
