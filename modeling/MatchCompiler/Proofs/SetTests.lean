import MatchCompiler.Proofs.LabelBounds
import MatchCompiler.Proofs.MatchEvents

/-
  This file compares the two tests of set patterns.

  Over a type whose values are numbered, a set pattern becomes
  a mask test or a membership test, as the options say. The
  mask is that of the members that the literals mean, but the
  membership test compares with the literals. A member that
  is named in full has the name of what it means, and the two
  tests agree on it. A shortened name is the name of no value
  at all: the membership test then never holds, while the
  mask test does on the set of just the members.

  Key definitions include:
    * `Schema.HasValue`
    * `Schema.NamesInFull`
    * `SetPattern.MadeFor`
    * `SetPattern.Answers`

  Key theorems include:
    * `SetMember.MadeFrom.equals_literal`
    * `SetPattern.MadeFor.verdict_eq_of_full`
    * `SetPattern.MadeFor.full_of_verdicts`
    * `setTests_agree_iff`
-/

------------------------------------------------------------
-- Values And Names
------------------------------------------------------------

namespace MatchCompiler

namespace Schema

/- The values of an enumeration, or of the booleans. -/
def HasValue (s : Schema) : Value → Prop
| .member name ordinal =>
    s.kind = .enumeration ∧ (⟨name, ordinal⟩ : Member) ∈ s.members
| .bool _ => s.kind = .primitive ∧ s.primitive = some .bool
| _ => False

/-
  If the type is an enumeration, a literal is the whole name
  of a member. Symbols for the booleans are replaced anyway.
-/
def NamesInFull
    (s : Schema)
    (l : Literal) : Prop :=
  s.kind = .enumeration →
    ∀ name, l = .sym name → name ∈ s.members.map Member.name

end Schema

end MatchCompiler

------------------------------------------------------------
-- Members
------------------------------------------------------------

namespace MatchCompiler

/- Numbered members have numbers of 32 bits. -/
theorem ordinal_lt_of_foldlM
    {ms : List Member}
    {most domain : Nat}
    (h :
      ms.foldlM
        (fun most m =>
          if 0 ≤ m.ordinal && m.ordinal + 1 < 4294967296 then
            some (max most (m.ordinal.toNat + 1))
          else
            none) most = some domain) :
    ∀ m ∈ ms, m.ordinal < 4294967296 := by
  induction ms generalizing most with
  | nil => exact nofun
  | cons m ms ih =>
      rw [List.foldlM_cons] at h
      split at h
      · rename_i hRange
        simp only [Bool.and_eq_true, decide_eq_true_eq] at hRange
        exact List.forall_mem_cons.mpr ⟨by omega, ih h⟩
      · cases h

section

variable {p : SchemaPool}
variable {e : SchemaId}
variable {domain : Nat}
variable (hDomain : p.ordinalDomain e = some domain)

include hDomain

/- The members of a numbered enumeration have their numbers. -/
theorem SchemaPool.ordinal_of_domain
    (hKind : (p.get e).kind = .enumeration)
    {k : Member}
    (hk : k ∈ (p.get e).members) :
    (0 ≤ k.ordinal ∧ k.ordinal.toNat < domain) ∧
    CheckedLiteral.ordinal? (.member k) = some k.ordinal.toNat := by
  have hRead : (p.get e).structuralKind = .enumeration := by
    unfold Schema.structuralKind
    rw [hKind]
    rfl
  unfold SchemaPool.ordinalDomain Schema.ordinalDomain at hDomain
  rw [hRead] at hDomain
  have hRange := (le_and_lt_of_foldlM hDomain).2 k hk
  have hHigh := ordinal_lt_of_foldlM hDomain k hk
  refine ⟨hRange, ?_⟩
  have hFits : (0 ≤ k.ordinal && k.ordinal < 4294967296) = true := by
    simp only [Bool.and_eq_true, decide_eq_true_eq]
    exact ⟨hRange.1, hHigh⟩
  exact if_pos hFits

/- There are two booleans. -/
theorem SchemaPool.domain_eq_two
    (hKind : (p.get e).kind = .primitive)
    (hBool : (p.get e).primitive = some .bool) :
    domain = 2 := by
  have hRead : (p.get e).structuralKind = .primitive := by
    unfold Schema.structuralKind
    rw [hKind]
    rfl
  unfold SchemaPool.ordinalDomain Schema.ordinalDomain at hDomain
  rw [hRead, hBool] at hDomain
  exact (Option.some.inj hDomain).symm

theorem SchemaPool.numberBelow_member
    (hKind : (p.get e).kind = .enumeration)
    {k : Member}
    (hk : k ∈ (p.get e).members) :
    (Value.member k.name k.ordinal).numberBelow domain =
      .ok k.ordinal.toNat := by
  rcases (ordinal_of_domain hDomain hKind hk).1 with ⟨hLow, hHigh⟩
  have hFits : (0 ≤ k.ordinal && k.ordinal < (domain : Int)) = true := by
    simp only [Bool.and_eq_true, decide_eq_true_eq]
    omega
  exact if_pos hFits

theorem SchemaPool.numberBelow_bool
    (hKind : (p.get e).kind = .primitive)
    (hBool : (p.get e).primitive = some .bool)
    (b : Bool) :
    (Value.bool b).numberBelow domain = .ok (if b then 1 else 0) := by
  have hTwo := domain_eq_two hDomain hKind hBool
  subst hTwo
  cases b <;> rfl

/- Every value of a numbered type has a number. -/
theorem Schema.HasValue.exists_number
    {v : Value}
    (h : (p.get e).HasValue v) :
    ∃ n, v.numberBelow domain = .ok n := by
  cases v with
  | member name ordinal =>
      exact ⟨_, SchemaPool.numberBelow_member hDomain h.1 h.2⟩
  | bool b => exact ⟨_, SchemaPool.numberBelow_bool hDomain h.1 h.2 b⟩
  | _ => cases h

end

namespace SetMember

variable {p : SchemaPool}
variable {marker : Char}
variable {e : SchemaId}
variable {ms : List Member}
variable {l : Literal}
variable {m : SetMember}
variable {domain : Nat}

/-
  What a literal is made to: the member that its name means,
  under the name as it is written, or a boolean.
-/
theorem MadeFrom.cases
    (h : MadeFrom p marker e l m)
    (hMembers : (p.get e).ListsMembers ms)
    (hDomain : p.ordinalDomain e = some domain) :
    (∃ name, ∃ k ∈ (p.get e).members,
      (p.get e).kind = .enumeration ∧ l = .sym name ∧
      checkMember marker (p.get e) name = .ok (.member k) ∧
      m = ⟨.sym name, some k.ordinal.toNat⟩) ∨
    ∃ b, (p.get e).kind = .primitive ∧
      (p.get e).primitive = some .bool ∧
      m = ⟨.bool b, some (if b then 1 else 0)⟩ := by
  rcases h with ⟨meaning, hMeaning, hLiteral, hOrdinal⟩
  rw [hDomain, Option.isSome_some, if_pos rfl] at hOrdinal
  rcases m with ⟨literal, ordinal⟩
  subst hLiteral hOrdinal
  rcases SchemaPool.meaning_of_listsMembers hMembers hMeaning with
    ⟨k, -, rfl⟩ | ⟨hBool, hKind, b, rfl⟩
  · rcases SchemaPool.cases_of_checkLiteral hMeaning with
      ⟨hNe, -⟩ | ⟨hNe, -⟩ | ⟨hNe, -⟩ | ⟨⟨_, hNe⟩, -⟩ | ⟨⟨k', hk', hEq⟩, hRead⟩
    iterate 4 cases hNe
    cases hEq
    have hKind := Schema.kind_of_structuralKind hRead (by decide)
    have hPlain : (p.get e).isReference = false := by
      unfold Schema.isReference
      rw [hKind]
      rfl
    unfold SchemaPool.checkLiteral Schema.checkLiteral at hMeaning
    dsimp only at hMeaning
    rw [hPlain, Bool.and_false, hRead] at hMeaning
    cases l with
    | sym name =>
        refine .inl ⟨name, k, hk', hKind, rfl, hMeaning, ?_⟩
        rw [(SchemaPool.ordinal_of_domain hDomain hKind hk').2]
        rfl
    | _ => cases hMeaning
  · exact .inr ⟨b, hKind, hBool, rfl⟩

/- A whole name means the member that has it. -/
theorem eq_of_checkMember_of_mem
    {s : Schema}
    {name : String}
    {k : Member}
    (h : checkMember marker s name = .ok (.member k))
    (hFull : name ∈ s.members.map Member.name) :
    k.name = name := by
  unfold checkMember at h
  dsimp only at h
  split at h
  · rename_i k' hFound
    cases h
    unfold Schema.member? at hFound
    have hSame := List.find?_some hFound
    exact beq_iff_eq.mp hSame
  · rename_i hNone
    rcases List.mem_map.mp hFull with ⟨k', hk', hName⟩
    have hNot := List.find?_eq_none.mp hNone k' hk'
    exact absurd (beq_iff_eq.mpr hName) hNot

variable (h : MadeFrom p marker e l m)
variable (hMembers : (p.get e).ListsMembers ms)
variable (hDomain : p.ordinalDomain e = some domain)

include h hMembers hDomain

/- There is a value with the number of a member. -/
theorem MadeFrom.exists_value :
    ∃ k v, m.ordinal = some k ∧ (p.get e).HasValue v ∧
      v.numberBelow domain = .ok k := by
  rcases h.cases hMembers hDomain with
    ⟨name, k, hk, hKind, -, -, rfl⟩ | ⟨b, hKind, hBool, rfl⟩
  · exact ⟨_, .member k.name k.ordinal, rfl, ⟨hKind, hk⟩,
      SchemaPool.numberBelow_member hDomain hKind hk⟩
  · exact ⟨_, .bool b, rfl, ⟨hKind, hBool⟩,
      SchemaPool.numberBelow_bool hDomain hKind hBool b⟩

/-
  A value equals the literal of a member that is named in
  full just if it has the number of the member.
-/
theorem MadeFrom.equals_literal
    (hNames : (ms.map Member.name).Nodup)
    (hOrdinals : (ms.map Member.ordinal).Nodup)
    (hFull : (p.get e).NamesInFull l)
    {v : Value}
    (hv : (p.get e).HasValue v)
    {n k : Nat}
    (hNumber : v.numberBelow domain = .ok n)
    (hOrdinal : m.ordinal = some k) :
    v.equals m.literal = (n == k) := by
  rcases h.cases hMembers hDomain with
    ⟨name, mk, hMem, hKind, rfl, hCheck, rfl⟩ | ⟨b, hKind, hBool, rfl⟩
  · have hListed : (p.get e).members = ms := by
      rcases hMembers with ⟨-, hEq⟩ | ⟨hOther, -⟩
      · exact hEq
      · cases hKind.symm.trans hOther
    cases hOrdinal
    have hName : mk.name = name :=
      eq_of_checkMember_of_mem hCheck (hFull hKind name rfl)
    cases v with
    | member vName vOrdinal =>
        have hvMem := hv.2
        have hOwn := SchemaPool.numberBelow_member hDomain hKind hvMem
        cases hNumber.symm.trans hOwn
        have hLow := (SchemaPool.ordinal_of_domain hDomain hKind hMem).1.1
        have hLow' :=
          (SchemaPool.ordinal_of_domain hDomain hKind hvMem).1.1
        rw [hListed] at hMem hvMem
        change (vName == name) = (vOrdinal.toNat == mk.ordinal.toNat)
        rw [← hName, Bool.eq_iff_iff, beq_iff_eq, beq_iff_eq]
        constructor
        · intro hSame
          cases eq_of_names_nodup hNames hvMem hMem hSame
          rfl
        · intro hSame
          have hOrdinal : vOrdinal = mk.ordinal := by
            dsimp only at hLow'
            omega
          cases eq_of_ordinals_nodup hOrdinals hvMem hMem hOrdinal
          rfl
    | bool b => cases hv.1.symm.trans hKind
    | _ => cases hv
  · cases hOrdinal
    cases v with
    | member name ordinal => cases hv.1.symm.trans hKind
    | bool b' =>
        have hOwn := SchemaPool.numberBelow_bool hDomain hKind hBool b'
        cases hNumber.symm.trans hOwn
        cases b <;> cases b' <;> rfl
    | _ => cases hv

/- No value has a name that is shortened. -/
theorem MadeFrom.not_equals_literal
    (hShort : ¬ (p.get e).NamesInFull l)
    {v : Value}
    (hv : (p.get e).HasValue v) :
    v.equals m.literal = false := by
  unfold Schema.NamesInFull at hShort
  push Not at hShort
  rcases hShort with ⟨hKind, name, rfl, hNot⟩
  rcases h.cases hMembers hDomain with
    ⟨name', k, hk, -, hEq, -, rfl⟩ | ⟨b, hOther, -⟩
  · cases hEq
    cases v with
    | member vName vOrdinal =>
        change (vName == name) = false
        rw [beq_eq_false_iff_ne]
        rintro rfl
        exact hNot (List.mem_map_of_mem hv.2)
    | bool b => cases hv.1.symm.trans hKind
    | _ => cases hv
  · cases hKind.symm.trans hOther

end SetMember

end MatchCompiler

------------------------------------------------------------
-- Numbers Of Lists
------------------------------------------------------------

namespace MatchCompiler

section

variable {α β : Type}
variable {R : α → β → Prop}
variable {xs : List α}
variable {ys : List β}
variable (h : List.Forall₂ R xs ys)
variable {f : α → Bool}
variable {g : β → Bool}
variable (hSame : ∀ x y, R x y → f x = g y)

include h hSame

theorem all_eq_of_forall₂ :
    xs.all f = ys.all g := by
  induction h with
  | nil => rfl
  | cons hHead _ ih =>
      rw [List.all_cons, List.all_cons, hSame _ _ hHead, ih]

theorem any_eq_of_forall₂ :
    xs.any f = ys.any g := by
  induction h with
  | nil => rfl
  | cons hHead _ ih =>
      rw [List.any_cons, List.any_cons, hSame _ _ hHead, ih]

end

/-
  Comparing names is comparing numbers, if each name is that
  of the value with the number.
-/
theorem SetPattern.setContains_eq_holdsByNumber
    (q : SetPattern)
    {Numbered : SetMember → Nat → Prop}
    {Counted : Value → Nat → Prop}
    {ks ns : List Nat}
    {items : List Value}
    (hMembers : List.Forall₂ Numbered q.members ks)
    (hItems : List.Forall₂ Counted items ns)
    (hEquals :
      ∀ m k v n, Numbered m k → Counted v n →
        v.equals m.literal = (n == k)) :
    Value.setContains (q.members.map SetMember.literal) q.exact items =
      q.holdsByNumber ks ns := by
  unfold Value.setContains holdsByNumber
  congr 1
  · rw [List.all_map]
    refine all_eq_of_forall₂ hMembers fun m k hm => ?_
    rw [List.contains_eq_any_beq]
    refine any_eq_of_forall₂ hItems fun v n hv => ?_
    rw [hEquals m k v n hm hv]
    exact BEq.comm
  · congr 1
    refine all_eq_of_forall₂ hItems fun v n hv => ?_
    rw [List.contains_eq_any_beq, List.any_map]
    exact any_eq_of_forall₂ hMembers fun m k hm => hEquals m k v n hm hv

end MatchCompiler

------------------------------------------------------------
-- Verdicts
------------------------------------------------------------

namespace MatchCompiler

/- Every value of a list of items has a number. -/
theorem exists_numbersBelow
    {p : SchemaPool}
    {e : SchemaId}
    {domain : Nat}
    (hDomain : p.ordinalDomain e = some domain)
    {items : List Value}
    (hItems : ∀ v ∈ items, (p.get e).HasValue v) :
    ∃ ns, items.mapM (Value.numberBelow domain) = .ok ns ∧
      List.Forall₂
        (fun v n => v ∈ items ∧ v.numberBelow domain = .ok n) items ns :=
  exists_mapM_eq_pure fun v hv => (hItems v hv).exists_number hDomain

/- Numbers that values have are those of a list of values. -/
theorem exists_values
    {s : Schema}
    {domain : Nat}
    {ks : List Nat}
    (h : ∀ k ∈ ks, ∃ v, s.HasValue v ∧ v.numberBelow domain = .ok k) :
    ∃ items : List Value, (∀ v ∈ items, s.HasValue v) ∧
      items.mapM (Value.numberBelow domain) = .ok ks := by
  induction ks with
  | nil => exact ⟨[], nofun, rfl⟩
  | cons k ks ih =>
      rcases h k List.mem_cons_self with ⟨v, hv, hNumber⟩
      rcases ih fun k hk => h k (List.mem_cons_of_mem _ hk) with
        ⟨items, hTyped, hItems⟩
      refine ⟨v :: items, List.forall_mem_cons.mpr ⟨hv, hTyped⟩, ?_⟩
      rw [List.mapM_cons, hNumber, hItems]
      rfl

namespace SetPattern

/- A set of just the members has them all, and no others. -/
theorem holdsByNumber_self
    (q : SetPattern)
    (ks : List Nat) :
    q.holdsByNumber ks ks = true := by
  have hAll : ks.all ks.contains = true :=
    List.all_eq_true.mpr fun k hk => List.contains_iff_mem.mpr hk
  unfold holdsByNumber
  rw [hAll, Bool.or_true]
  rfl

/- A set pattern is made from literals, for sets of a type. -/
structure MadeFor
    (p : SchemaPool)
    (marker : Char)
    (e : SchemaId)
    (ls : List Literal)
    (q : SetPattern) : Prop where
  domain : q.domain = p.ordinalDomain e
  members : List.Forall₂ (SetMember.MadeFrom p marker e) ls q.members

namespace MadeFor

variable {p : SchemaPool}
variable {marker : Char}
variable {e : SchemaId}
variable {ls : List Literal}
variable {q : SetPattern}
variable (h : q.MadeFor p marker e ls)

include h

/- Without numbers, or with too many, names are compared. -/
theorem verdict_of_lt
    {o : LoweringOptions}
    (hLimit :
      ∀ domain, p.ordinalDomain e = some domain →
        o.bitsetLimit < domain)
    (items : List Value) :
    q.verdict o (.set items) =
      .ok (Value.setContains (q.members.map SetMember.literal) q.exact
        items) := by
  unfold verdict
  rw [Lowered.set_of_lt]
  · rfl
  · intro domain members hNumbers
    refine hLimit domain ?_
    unfold numbers? at hNumbers
    rw [← h.domain]
    rcases hDomain : q.domain with _ | domain'
    · rw [hDomain] at hNumbers
      cases hNumbers
    · rw [hDomain] at hNumbers
      rcases hMembers : q.members.mapM SetMember.ordinal with _ | ks
      · rw [hMembers] at hNumbers
        cases hNumbers
      · rw [hMembers] at hNumbers
        cases hNumbers
        rfl

/- A mask compares numbers. -/
theorem verdict_of_le
    {domain : Nat}
    (hDomain : p.ordinalDomain e = some domain)
    {o : LoweringOptions}
    (hLimit : domain ≤ o.bitsetLimit)
    {ks : List Nat}
    (hNumbers : q.numbers? = some (domain, ks))
    {items : List Value}
    {ns : List Nat}
    (hItems : items.mapM (Value.numberBelow domain) = .ok ns) :
    q.verdict o (.set items) = .ok (q.holdsByNumber ks ns) := by
  refine Lowered.reading_set rfl ?_ ?_ ?_
  · intro n hn m hm k hk
    rw [h.domain, hDomain] at hn
    cases hn
    rcases exists_counterpart h.members hm with ⟨l, -, hMade⟩
    exact SetMember.Means.lt ⟨l, hMade⟩ hDomain hk
  · intro domain' members _ _ hNumbers' hLt
    cases hNumbers.symm.trans hNumbers'
    exact absurd hLimit (Nat.not_le_of_lt hLt)
  · unfold holds
    rw [hNumbers]
    change (items.mapM (Value.numberBelow domain) >>= _) = _
    rw [hItems]
    rfl

variable {ms : List Member}
variable (hMembers : (p.get e).ListsMembers ms)
variable {domain : Nat}
variable (hDomain : p.ordinalDomain e = some domain)

include hMembers hDomain

/- All members of a pattern for a numbered type have numbers. -/
theorem exists_numbers :
    ∃ ks, q.numbers? = some (domain, ks) ∧
      List.Forall₂ (fun m k => m ∈ q.members ∧ m.ordinal = some k)
        q.members ks := by
  have hEach : ∀ m ∈ q.members, ∃ k, m.ordinal = some k := by
    intro m hm
    rcases exists_counterpart h.members hm with ⟨l, -, hMade⟩
    rcases hMade.exists_value hMembers hDomain with ⟨k, -, hOrdinal, -⟩
    exact ⟨k, hOrdinal⟩
  rcases exists_mapM_eq_pure hEach with ⟨ks, hks, hNumbers⟩
  refine ⟨ks, ?_, hNumbers⟩
  unfold numbers?
  rw [h.domain, hDomain, hks]
  rfl

/- Where all members are named in full, so do the names. -/
theorem setContains_eq
    (hNames : (ms.map Member.name).Nodup)
    (hOrdinals : (ms.map Member.ordinal).Nodup)
    (hFull : ∀ l ∈ ls, (p.get e).NamesInFull l)
    {ks : List Nat}
    (hNumbers : q.numbers? = some (domain, ks))
    {items : List Value}
    (hTyped : ∀ v ∈ items, (p.get e).HasValue v)
    {ns : List Nat}
    (hItems : items.mapM (Value.numberBelow domain) = .ok ns) :
    Value.setContains (q.members.map SetMember.literal) q.exact items =
      q.holdsByNumber ks ns := by
  rcases h.exists_numbers hMembers hDomain with ⟨ks', hks, hEach⟩
  cases hks.symm.trans hNumbers
  rcases exists_numbersBelow hDomain hTyped with ⟨ns', hns, hCounted⟩
  cases hns.symm.trans hItems
  refine q.setContains_eq_holdsByNumber hEach hCounted ?_
  rintro m k v n ⟨hm, hk⟩ ⟨hv, hn⟩
  rcases exists_counterpart h.members hm with ⟨l, hl, hMade⟩
  exact hMade.equals_literal hMembers hDomain hNames hOrdinals
    (hFull l hl) (hTyped v hv) hn hk

omit hDomain

/- On sets of the type the test gives an answer. -/
theorem exists_verdict
    (o : LoweringOptions)
    {items : List Value}
    (hTyped : ∀ v ∈ items, (p.get e).HasValue v) :
    ∃ b, q.verdict o (.set items) = .ok b := by
  by_cases hMask : ∃ n, p.ordinalDomain e = some n ∧ n ≤ o.bitsetLimit
  · rcases hMask with ⟨n, hDomain, hLimit⟩
    rcases h.exists_numbers hMembers hDomain with ⟨ks, hNumbers, -⟩
    rcases exists_numbersBelow hDomain hTyped with ⟨ns, hItems, -⟩
    exact ⟨_, h.verdict_of_le hDomain hLimit hNumbers hItems⟩
  · push Not at hMask
    exact ⟨_, h.verdict_of_lt hMask items⟩

/-
  Options do not matter if members are named in full, or if
  there are more values than a mask has bits.
-/
theorem verdict_eq_of_full
    (hNames : (ms.map Member.name).Nodup)
    (hOrdinals : (ms.map Member.ordinal).Nodup)
    (hFull :
      ∀ domain, p.ordinalDomain e = some domain →
        domain ≤ LoweringOptions.maskWidth →
        ∀ l ∈ ls, (p.get e).NamesInFull l)
    (o : LoweringOptions)
    {items : List Value}
    (hTyped : ∀ v ∈ items, (p.get e).HasValue v) :
    q.verdict o (.set items) =
      .ok (Value.setContains (q.members.map SetMember.literal) q.exact
        items) := by
  by_cases hMask : ∃ n, p.ordinalDomain e = some n ∧ n ≤ o.bitsetLimit
  · rcases hMask with ⟨n, hDomain, hLimit⟩
    have hWidth := hLimit.trans (Nat.min_le_right _ _)
    rcases h.exists_numbers hMembers hDomain with ⟨ks, hNumbers, -⟩
    rcases exists_numbersBelow hDomain hTyped with ⟨ns, hItems, -⟩
    rw [h.verdict_of_le hDomain hLimit hNumbers hItems,
      h.setContains_eq hMembers hDomain hNames hOrdinals
        (hFull n hDomain hWidth) hNumbers hTyped hItems]
  · push Not at hMask
    exact h.verdict_of_lt hMask items

/- The set of just the members of a pattern. -/
theorem exists_items
    (hDomain : p.ordinalDomain e = some domain) :
    ∃ (items : List Value) (ks : List Nat),
      (∀ v ∈ items, (p.get e).HasValue v) ∧
      q.numbers? = some (domain, ks) ∧
      items.mapM (Value.numberBelow domain) = .ok ks := by
  rcases h.exists_numbers hMembers hDomain with ⟨ks, hNumbers, hEach⟩
  have hValues :
      ∀ k ∈ ks, ∃ v, (p.get e).HasValue v ∧
        v.numberBelow domain = .ok k := by
    intro k hk
    rcases exists_counterpart hEach hk with ⟨m, -, hm, hOrdinal⟩
    rcases exists_counterpart h.members hm with ⟨l, -, hMade⟩
    rcases hMade.exists_value hMembers hDomain with
      ⟨k', v, hOrdinal', hv, hNumber⟩
    cases hOrdinal.symm.trans hOrdinal'
    exact ⟨v, hv, hNumber⟩
  rcases exists_values hValues with ⟨items, hTyped, hItems⟩
  exact ⟨items, ks, hTyped, hNumbers, hItems⟩

/-
  If options do not matter, members are named in full. With
  a shortened name the set of just the members tells the two
  tests apart.
-/
theorem full_of_verdicts
    (hSame :
      ∀ (o o' : LoweringOptions) (items : List Value),
        (∀ v ∈ items, (p.get e).HasValue v) →
        q.verdict o (.set items) = q.verdict o' (.set items))
    (hDomain : p.ordinalDomain e = some domain)
    (hWidth : domain ≤ LoweringOptions.maskWidth)
    {l : Literal}
    (hl : l ∈ ls) :
    (p.get e).NamesInFull l := by
  by_contra hShort
  rcases h.exists_items hMembers hDomain with
    ⟨items, ks, hTyped, hNumbers, hItems⟩
  have hCounterpart :
      ∃ m ∈ q.members, SetMember.MadeFrom p marker e l m :=
    exists_counterpart h.members.flip hl
  rcases hCounterpart with ⟨m, hm, hMade⟩
  have hPositive : 0 < domain := by
    rcases hMade.exists_value hMembers hDomain with
      ⟨k, v, -, -, hNumber⟩
    exact Nat.zero_lt_of_lt (Value.numberBelow_eq_ok hNumber).2
  have hMask :
      q.verdict { bitsetDomainLimit := LoweringOptions.maskWidth }
        (.set items) = .ok true := by
    have hLimit :
        domain ≤ LoweringOptions.bitsetLimit
          { bitsetDomainLimit := LoweringOptions.maskWidth } :=
      le_min hWidth hWidth
    rw [h.verdict_of_le hDomain hLimit hNumbers hItems,
      holdsByNumber_self]
  have hContains :
      q.verdict { bitsetDomainLimit := 0 } (.set items) = .ok false := by
    rw [h.verdict_of_lt fun n hn => ?_]
    · refine congrArg Except.ok ?_
      unfold Value.setContains
      rw [Bool.and_eq_false_iff]
      refine .inl (List.all_eq_false.mpr
        ⟨m.literal, List.mem_map_of_mem hm, ?_⟩)
      rw [Bool.not_eq_true, List.any_eq_false]
      intro v hv
      rw [Bool.not_eq_true]
      exact hMade.not_equals_literal hMembers hDomain hShort
        (hTyped v hv)
    · cases hDomain.symm.trans hn
      exact (Nat.min_le_left _ _).trans_lt hPositive
  have hEq := hSame { bitsetDomainLimit := LoweringOptions.maskWidth }
    { bitsetDomainLimit := 0 } items hTyped
  rw [hMask, hContains] at hEq
  cases hEq

end MadeFor

end SetPattern

end MatchCompiler

------------------------------------------------------------
-- Set Patterns
------------------------------------------------------------

namespace MatchCompiler

/-
  The test that a set pattern becomes answers the same for a
  set wherever the set is read.
-/
def SetPattern.Answers
    (q : SetPattern)
    (o : LoweringOptions)
    (items : List Value)
    (b : Bool) : Prop :=
  ∀ (σ : Type) (host : GuardHost σ) (bindings : AccessBindings)
    (a : Access) (root : Value) (c : Choices) (s : σ),
    a.resolve root c = .ok (.set items) →
    (Lowered.set o a q).eval host root bindings (c, s) =
      (.ok b, (c, s))

theorem SetPattern.answers_iff
    {q : SetPattern}
    {o : LoweringOptions}
    {items : List Value}
    {b : Bool} :
    q.Answers o items b ↔ q.verdict o (.set items) = .ok b := by
  constructor
  · intro h
    have hHere := h Unit (fun _ _ => pure true) [] .scrutinee
      (.set items) .empty () rfl
    rw [Test.eval_leaf _ _ _ (Lowered.isLeaf_set _ _ _)] at hHere
    exact congrArg Prod.fst hHere
  · intro h σ host bindings a root c s hRead
    rw [Test.eval_leaf _ _ _ (Lowered.isLeaf_set _ _ _),
      Lowered.reading_set_eq hRead, h]

/- A set pattern that is checked without a problem is made so. -/
theorem Pattern.madeFor_of_check
    {ctx : CheckContext}
    {span : Span}
    {ls : List Literal}
    {exact : Bool}
    {id e : SchemaId}
    {s s' : CheckState}
    {checked : Checked}
    (hCheck :
      ((Pattern.set span ls exact).check ctx id).run s = (checked, s'))
    (hProblems : s'.problems = s.problems)
    (hElement : (s.registry.pool.get id).element = some e) :
    ∃ q, checked = .set span q ∧ q.exact = exact ∧
      q.MadeFor s.registry.pool ctx.marker e ls := by
  have hSound :
      Sound (Check.setPattern ctx span id ls exact) fun s checked s' =>
        ∀ e, (s.pool.get id).element = some e →
          ∃ q, checked = .set span q ∧ q.exact = exact ∧
            q.MadeFor s.pool ctx.marker e ls := by
    refine (Sound.schema id).bind fun t => ?_
    split
    · rename_i element hKind hElement
      refine Sound.pool.bind fun p => ?_
      refine (Sound.setMembers ctx span element _ ls).bind
        fun members => ?_
      refine Sound.pure fun s s₂ hMembers s₁ hPool s₀ hSchema e he => ?_
      rcases hPool with ⟨rfl, rfl⟩
      rcases hMembers with ⟨rfl, hMembers⟩
      rcases hSchema with ⟨rfl, rfl⟩
      cases hElement.symm.trans he
      exact ⟨_, rfl, rfl, rfl, hMembers rfl⟩
    · exact Sound.reject span _
  exact hSound.of_run hCheck hProblems e hElement

/-
  A set pattern is checked without a problem against sets of
  an enumeration or of the booleans. Its test answers on all
  sets of the type, and options do not change the answers
  just if the members are named in full, or there are more
  values than a mask has bits.
-/
theorem setTests_agree_iff
    {ctx : CheckContext}
    {span : Span}
    {ls : List Literal}
    {exact : Bool}
    {id e : SchemaId}
    {s s' : CheckState}
    {checked : Checked}
    (hCheck :
      ((Pattern.set span ls exact).check ctx id).run s = (checked, s'))
    (hProblems : s'.problems = s.problems)
    (hElement : (s.registry.pool.get id).element = some e)
    {ms : List Member}
    (hMembers : (s.registry.pool.get e).ListsMembers ms)
    (hNames : (ms.map Member.name).Nodup)
    (hOrdinals : (ms.map Member.ordinal).Nodup) :
    ∃ q, checked = .set span q ∧ q.exact = exact ∧
      (∀ o items,
        (∀ v ∈ items, (s.registry.pool.get e).HasValue v) →
        ∃ b, q.Answers o items b) ∧
      ((∀ o o' items b,
          (∀ v ∈ items, (s.registry.pool.get e).HasValue v) →
          q.Answers o items b → q.Answers o' items b) ↔
        ∀ domain, s.registry.pool.ordinalDomain e = some domain →
          domain ≤ LoweringOptions.maskWidth →
          ∀ l ∈ ls, (s.registry.pool.get e).NamesInFull l) := by
  rcases Pattern.madeFor_of_check hCheck hProblems hElement with
    ⟨q, hChecked, hExact, hMade⟩
  refine ⟨q, hChecked, hExact, fun o items hTyped => ?_, ?_, ?_⟩
  · rcases hMade.exists_verdict hMembers o hTyped with ⟨b, hVerdict⟩
    exact ⟨b, SetPattern.answers_iff.mpr hVerdict⟩
  · intro hSame domain hDomain hWidth l hl
    refine hMade.full_of_verdicts hMembers (fun o o' items hTyped => ?_)
      hDomain hWidth hl
    rcases hMade.exists_verdict hMembers o hTyped with ⟨b, hVerdict⟩
    have hAnswers := SetPattern.answers_iff.mpr hVerdict
    rw [hVerdict,
      SetPattern.answers_iff.mp (hSame o o' items b hTyped hAnswers)]
  · intro hFull o o' items b hTyped hAnswers
    rw [SetPattern.answers_iff] at hAnswers ⊢
    rw [hMade.verdict_eq_of_full hMembers hNames hOrdinals hFull o'
      hTyped, ← hAnswers]
    exact (hMade.verdict_eq_of_full hMembers hNames hOrdinals hFull o
      hTyped).symm

/- A set pattern with a member that is named in full. -/
def fullNamePattern : Pattern :=
  .set {} [.sym "nkIdent"] false

/- Its tests agree on all sets of the enumeration's values. -/
theorem fullNamePattern_agrees :
    ∃ q,
      ((fullNamePattern.check { table := {}, marker := 'k' } 1).run
        { registry := kindSchemas }).1 = .set {} q ∧
      ∀ o o' items b,
        (∀ v ∈ items, (kindSchemas.pool.get 0).HasValue v) →
        q.Answers o items b → q.Answers o' items b := by
  have hCheck :
      (fullNamePattern.check { table := {}, marker := 'k' } 1).run
        { registry := kindSchemas } =
        (.set {}
          { members := [⟨.sym "nkIdent", some 0⟩]
            exact := false
            domain := some 2 }, { registry := kindSchemas }) :=
    rfl
  have hAgree := setTests_agree_iff hCheck rfl rfl (.inl ⟨rfl, rfl⟩)
    (by decide) (by decide)
  rcases hAgree with ⟨q, hChecked, -, -, hIff⟩
  refine ⟨q, hChecked, hIff.mpr ?_⟩
  rintro domain - - l hl - name rfl
  cases List.mem_singleton.mp hl
  exact List.mem_cons_self

/- The tests of a shortened name do not agree. -/
theorem shortNamePattern_differs :
    ∃ q,
      (shortNamePattern.check { table := {}, marker := 'k' } 1).run
        { registry := kindSchemas } =
        (.set {} q, { registry := kindSchemas }) ∧
      q.Answers {} [.member "nkIdent" 0] true ∧
      q.Answers { bitsetDomainLimit := 0 } [.member "nkIdent" 0] false :=
  ⟨_, rfl, SetPattern.answers_iff.mpr rfl,
    SetPattern.answers_iff.mpr rfl⟩

end MatchCompiler
