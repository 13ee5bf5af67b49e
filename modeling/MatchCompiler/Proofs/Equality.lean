import MatchCompiler.Procedure.Test

/-
  This file shows that the comparison of accesses and tests
  decides equality: what is written alike is equal, and
  nothing differs from itself.

  Grouping comparisons of one part and sharing a binding
  between the branches of an alternation both rest on it.

  Key theorems include:
    * `Access.eq_of_same`
    * `Access.eq_of_beq`
    * `Access.beq_self`
-/

------------------------------------------------------------
-- Equality
------------------------------------------------------------

namespace MatchCompiler

mutual

/- Accesses that are written alike are equal. -/
theorem Access.eq_of_same :
    ∀ {a b : Access}, a.same b = true → a = b
| .scrutinee, b, h => by
    cases b <;> simp_all [Access.same]
| .field a n, b, h => by
    cases b <;> simp only [Access.same, Bool.and_eq_true,
      beq_iff_eq, Bool.false_eq_true] at h
    rw [Access.eq_of_same h.1, h.2]
| .index a i, b, h => by
    cases b <;> simp only [Access.same, Bool.and_eq_true,
      beq_iff_eq, Bool.false_eq_true] at h
    rw [Access.eq_of_same h.1, h.2]
| .slice a r, b, h => by
    cases b <;> simp only [Access.same, Bool.and_eq_true,
      beq_iff_eq, Bool.false_eq_true] at h
    rw [Access.eq_of_same h.1, h.2]
| .payload a, b, h => by
    cases b <;> simp only [Access.same, Bool.false_eq_true] at h
    rw [Access.eq_of_same h]
| .mapValue a k, b, h => by
    cases b <;> simp only [Access.same, Bool.and_eq_true,
      beq_iff_eq, Bool.false_eq_true] at h
    rw [Access.eq_of_same h.1, h.2]
| .constant k, b, h => by
    cases b <;> simp_all [Access.same]
| .byLength a cs o, b, h => by
    cases b <;> simp only [Access.same, Bool.and_eq_true,
      Bool.false_eq_true] at h
    rw [Access.eq_of_same h.1.1, eq_of_sameCases h.1.2,
      Access.eq_of_same h.2]
| .choice i cs, b, h => by
    cases b <;> simp only [Access.same, Bool.and_eq_true,
      beq_iff_eq, Bool.false_eq_true] at h
    rw [h.1, eq_of_sameChoices h.2]
termination_by structural a => a

/- Branches of a choice that are written alike are equal. -/
theorem Alternative.eq_of_same :
    ∀ {a b : Alternative}, a.same b = true → a = b
| .mk i t bs a, .mk j u cs b, h => by
    simp only [Alternative.same, Bool.and_eq_true,
      beq_iff_eq] at h
    rw [h.1.1.1, Test.eq_of_same h.1.1.2,
      eq_of_sameBindings h.1.2, Access.eq_of_same h.2]
termination_by structural a => a

/- Tests that are written alike are equal. -/
theorem Test.eq_of_same :
    ∀ {t u : Test}, t.same u = true → t = u
| .always, u, h => by
    cases u <;> simp_all [Test.same]
| .never, u, h => by
    cases u <;> simp_all [Test.same]
| .and ts, u, h => by
    cases u <;> simp only [Test.same, Bool.false_eq_true] at h
    rw [eq_of_sameTests h]
| .or ts, u, h => by
    cases u <;> simp only [Test.same, Bool.false_eq_true] at h
    rw [eq_of_sameTests h]
| .alt i ts, u, h => by
    cases u <;> simp only [Test.same, Bool.and_eq_true,
      beq_iff_eq, Bool.false_eq_true] at h
    rw [h.1, eq_of_sameTests h.2]
| .equals a k, u, h => by
    cases u <;> simp only [Test.same, Bool.and_eq_true,
      beq_iff_eq, Bool.false_eq_true] at h
    rw [Access.eq_of_same h.1, h.2]
| .oneOf a ks, u, h => by
    cases u <;> simp only [Test.same, Bool.and_eq_true,
      beq_iff_eq, Bool.false_eq_true] at h
    rw [Access.eq_of_same h.1, h.2]
| .oneOfTexts a ks, u, h => by
    cases u <;> simp only [Test.same, Bool.and_eq_true,
      beq_iff_eq, Bool.false_eq_true] at h
    rw [Access.eq_of_same h.1, h.2]
| .tagIs a l, u, h => by
    cases u <;> simp only [Test.same, Bool.and_eq_true,
      beq_iff_eq, Bool.false_eq_true] at h
    rw [Access.eq_of_same h.1, h.2]
| .tagIn a ls, u, h => by
    cases u <;> simp only [Test.same, Bool.and_eq_true,
      beq_iff_eq, Bool.false_eq_true] at h
    rw [Access.eq_of_same h.1, h.2]
| .lengthIs a n, u, h => by
    cases u <;> simp only [Test.same, Bool.and_eq_true,
      beq_iff_eq, Bool.false_eq_true] at h
    rw [Access.eq_of_same h.1, h.2]
| .lengthAtLeast a n, u, h => by
    cases u <;> simp only [Test.same, Bool.and_eq_true,
      beq_iff_eq, Bool.false_eq_true] at h
    rw [Access.eq_of_same h.1, h.2]
| .lengthIn a n k, u, h => by
    cases u <;> simp only [Test.same, Bool.and_eq_true,
      beq_iff_eq, Bool.false_eq_true] at h
    rw [Access.eq_of_same h.1.1, h.1.2, h.2]
| .isNil a, u, h => by
    cases u <;> simp only [Test.same, Bool.false_eq_true] at h
    rw [Access.eq_of_same h]
| .isNotNil a, u, h => by
    cases u <;> simp only [Test.same, Bool.false_eq_true] at h
    rw [Access.eq_of_same h]
| .typeIs a n, u, h => by
    cases u <;> simp only [Test.same, Bool.and_eq_true,
      beq_iff_eq, Bool.false_eq_true] at h
    rw [Access.eq_of_same h.1, h.2]
| .isSome a, u, h => by
    cases u <;> simp only [Test.same, Bool.false_eq_true] at h
    rw [Access.eq_of_same h]
| .isNone a, u, h => by
    cases u <;> simp only [Test.same, Bool.false_eq_true] at h
    rw [Access.eq_of_same h]
| .hasKey a k, u, h => by
    cases u <;> simp only [Test.same, Bool.and_eq_true,
      beq_iff_eq, Bool.false_eq_true] at h
    rw [Access.eq_of_same h.1, h.2]
| .setContains a ks e, u, h => by
    cases u <;> simp only [Test.same, Bool.and_eq_true,
      beq_iff_eq, Bool.false_eq_true] at h
    rw [Access.eq_of_same h.1.1, h.1.2, h.2]
| .setMask a m e, u, h => by
    cases u <;> simp only [Test.same, Bool.and_eq_true,
      beq_iff_eq, Bool.false_eq_true] at h
    rw [Access.eq_of_same h.1.1, h.1.2, h.2]
| .guard i, u, h => by
    cases u <;> simp_all [Test.same]
termination_by structural t => t

/- Cases that are written alike are equal. -/
theorem eq_of_sameCases :
    ∀ {cs ds : List (Nat × Access)}, sameCases cs ds = true → cs = ds
| [], [], _ => rfl
| [], _ :: _, h => by simp [sameCases] at h
| (_, _) :: _, [], h => by simp [sameCases] at h
| (n, a) :: cs, (m, b) :: ds, h => by
    simp only [sameCases, Bool.and_eq_true, beq_iff_eq] at h
    rw [h.1.1, Access.eq_of_same h.1.2, eq_of_sameCases h.2]
termination_by structural cs => cs

/- Lists of branches that are written alike are equal. -/
theorem eq_of_sameChoices :
    ∀ {cs ds : List Alternative}, sameChoices cs ds = true → cs = ds
| [], [], _ => rfl
| [], _ :: _, h => by simp [sameChoices] at h
| _ :: _, [], h => by simp [sameChoices] at h
| a :: cs, b :: ds, h => by
    simp only [sameChoices, Bool.and_eq_true] at h
    rw [Alternative.eq_of_same h.1, eq_of_sameChoices h.2]
termination_by structural cs => cs

/- Bindings that are written alike are equal. -/
theorem eq_of_sameBindings :
    ∀ {bs cs : List (String × Access)},
      sameBindings bs cs = true → bs = cs
| [], [], _ => rfl
| [], _ :: _, h => by simp [sameBindings] at h
| (_, _) :: _, [], h => by simp [sameBindings] at h
| (n, a) :: bs, (m, b) :: cs, h => by
    simp only [sameBindings, Bool.and_eq_true, beq_iff_eq] at h
    rw [h.1.1, Access.eq_of_same h.1.2, eq_of_sameBindings h.2]
termination_by structural bs => bs

/- Lists of tests that are written alike are equal. -/
theorem eq_of_sameTests :
    ∀ {ts us : List Test}, sameTests ts us = true → ts = us
| [], [], _ => rfl
| [], _ :: _, h => by simp [sameTests] at h
| _ :: _, [], h => by simp [sameTests] at h
| t :: ts, u :: us, h => by
    simp only [sameTests, Bool.and_eq_true] at h
    rw [Test.eq_of_same h.1, eq_of_sameTests h.2]
termination_by structural ts => ts

end

mutual

/- An access is written like itself. -/
theorem Access.same_self :
    ∀ a : Access, a.same a = true
| .scrutinee => rfl
| .field a n => by simp [Access.same, a.same_self]
| .index a i => by simp [Access.same, a.same_self]
| .slice a r => by simp [Access.same, a.same_self]
| .payload a => a.same_self
| .mapValue a k => by simp [Access.same, a.same_self]
| .constant k => by simp [Access.same]
| .byLength a cs o => by
    simp [Access.same, a.same_self, sameCases_self cs, o.same_self]
| .choice i cs => by simp [Access.same, sameChoices_self cs]
termination_by structural a => a

/- A branch of a choice is written like itself. -/
theorem Alternative.same_self :
    ∀ a : Alternative, a.same a = true
| .mk i t bs a => by
    simp [Alternative.same, t.same_self, sameBindings_self bs,
      a.same_self]
termination_by structural a => a

/- A test is written like itself. -/
theorem Test.same_self :
    ∀ t : Test, t.same t = true
| .always => rfl
| .never => rfl
| .and ts => sameTests_self ts
| .or ts => sameTests_self ts
| .alt i ts => by simp [Test.same, sameTests_self ts]
| .equals a k => by simp [Test.same, a.same_self]
| .oneOf a ks => by simp [Test.same, a.same_self]
| .oneOfTexts a ks => by simp [Test.same, a.same_self]
| .tagIs a k => by simp [Test.same, a.same_self]
| .tagIn a ks => by simp [Test.same, a.same_self]
| .lengthIs a n => by simp [Test.same, a.same_self]
| .lengthAtLeast a n => by simp [Test.same, a.same_self]
| .lengthIn a n k => by simp [Test.same, a.same_self]
| .isNil a => a.same_self
| .isNotNil a => a.same_self
| .typeIs a n => by simp [Test.same, a.same_self]
| .isSome a => a.same_self
| .isNone a => a.same_self
| .hasKey a k => by simp [Test.same, a.same_self]
| .setContains a ks e => by simp [Test.same, a.same_self]
| .setMask a m e => by simp [Test.same, a.same_self]
| .guard i => by simp [Test.same]
termination_by structural t => t

/- Cases are written like themselves. -/
theorem sameCases_self :
    ∀ cs : List (Nat × Access), sameCases cs cs = true
| [] => rfl
| (n, a) :: cs => by
    simp [sameCases, a.same_self, sameCases_self cs]
termination_by structural cs => cs

/- Lists of branches are written like themselves. -/
theorem sameChoices_self :
    ∀ cs : List Alternative, sameChoices cs cs = true
| [] => rfl
| a :: cs => by simp [sameChoices, a.same_self, sameChoices_self cs]
termination_by structural cs => cs

/- Bindings are written like themselves. -/
theorem sameBindings_self :
    ∀ bs : List (String × Access), sameBindings bs bs = true
| [] => rfl
| (n, a) :: bs => by
    simp [sameBindings, a.same_self, sameBindings_self bs]
termination_by structural bs => bs

/- Lists of tests are written like themselves. -/
theorem sameTests_self :
    ∀ ts : List Test, sameTests ts ts = true
| [] => rfl
| t :: ts => by simp [sameTests, t.same_self, sameTests_self ts]
termination_by structural ts => ts

end

/- The comparison of accesses finds equal ones only. -/
theorem Access.eq_of_beq
    {a b : Access}
    (h : (a == b) = true) :
    a = b :=
  Access.eq_of_same h

/- The comparison of accesses finds all equal ones. -/
theorem Access.beq_self
    (a : Access) :
    (a == a) = true :=
  a.same_self

end MatchCompiler
