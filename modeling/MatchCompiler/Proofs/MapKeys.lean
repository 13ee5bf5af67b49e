import Mathlib.Data.List.Find
import MatchCompiler.Proofs.AcceptedUses
import MatchCompiler.Proofs.GuardBindings
import MatchCompiler.Proofs.SetTests

/-
  This file compares the keys of map patterns with the same
  literals as patterns.

  The key of an entry is checked as a literal of the key type,
  and so has a meaning there. What the tests of the entry look
  for is the literal as it was written. They select the value
  of the first key that has the meaning, in all maps, just if
  the literal as written tells the values of the key type apart
  like its meaning does. Names of members have to be whole for
  this, the symbols of the booleans never do it, and nil does
  it where no value of the key type is an absent optional.

  Key definitions include:
    * `SchemaPool.HasValue`
    * `SchemaPool.MeantAsWritten`
    * `CheckedLiteral.passes`
    * `CheckedLiteral.Selects`

  Key theorems include:
    * `SchemaPool.equals_eq_passes_iff`
    * `SchemaPool.meantAsWritten_iff_full`
    * `mapEntries_select_iff`
-/

------------------------------------------------------------
-- Values Of A Type
------------------------------------------------------------

namespace MatchCompiler

/- A value that has parts, other than an optional. -/
def Value.IsComposite : Value → Prop
| .object .. | .seq _ | .tuple _ | .map _ | .set _ => True
| _ => False

/-
  The values of the type in a slot. Nothing is known of an
  unknown type, and a reference is nil or what it points to.
  No literal but nil stands for a value with parts, so that
  it does not matter here which parts these are.
-/
inductive SchemaPool.HasValue
    (p : SchemaPool) : SchemaId → Value → Prop
| unknown
    {id : SchemaId}
    (hKind : (p.get id).kind = .unknown)
    (v : Value) :
    HasValue p id v
| primitive
    {id : SchemaId}
    {kind : Primitive}
    {v : Value}
    (hKind : (p.get id).kind = .primitive)
    (hPrimitive : (p.get id).primitive = some kind)
    (hHolds : kind.Holds v) :
    HasValue p id v
| member
    {id : SchemaId}
    {m : Member}
    (hKind : (p.get id).kind = .enumeration)
    (hMember : m ∈ (p.get id).members) :
    HasValue p id (.member m.name m.ordinal)
| absent
    {id : SchemaId}
    (hKind : (p.get id).kind = .optional) :
    HasValue p id .none
| present
    {id element : SchemaId}
    {w : Value}
    (hKind : (p.get id).kind = .optional)
    (hElement : (p.get id).element = some element)
    (hPayload : HasValue p element w) :
    HasValue p id (.some w)
| nil
    {id : SchemaId}
    (hKind : (p.get id).kind = .reference) :
    HasValue p id .nil
| pointee
    {id target : SchemaId}
    {v : Value}
    (hKind : (p.get id).kind = .reference)
    (hTarget : (p.get id).target = some target)
    (hPointee : HasValue p target v) :
    HasValue p id v
| composite
    {id : SchemaId}
    {v : Value}
    (hKind :
      (p.get id).kind ∈
        [.record, .union, .tuple, .sequence, .array, .map, .set])
    (hForm : v.IsComposite) :
    HasValue p id v

end MatchCompiler

------------------------------------------------------------
-- Literals And Their Meanings
------------------------------------------------------------

namespace MatchCompiler

/-
  Whether a value passes a literal pattern: the answer of the
  test that the pattern is compiled to. A value that the test
  does not fit does not pass.
-/
def CheckedLiteral.passes
    (meaning : CheckedLiteral)
    (v : Value) : Bool :=
  match ((Lowered.literal .scrutinee meaning).test.eval
      (fun _ _ => pure true) v [] (Choices.empty, ())).1 with
  | .ok b => b
  | .error _ => false

/-
  What a literal means at a type is told of a value by the
  literal itself. Members are meant by their whole names, and
  by no name of a member with another number; no symbol stands
  for something else; and what is meant by nil is told from an
  absent optional.
-/
structure SchemaPool.MeantAsWritten
    (p : SchemaPool)
    (id : SchemaId)
    (l : Literal)
    (meaning : CheckedLiteral) : Prop where
  value : ∀ k, meaning = .value k → k = l
  member :
    ∀ m, meaning = .member m →
      ∀ m' ∈ (p.get id).members,
        l = .sym m'.name ↔ m'.ordinal = m.ordinal
  nil : meaning = .nil → ¬ p.HasValue id .none

/- A literal passes where its meaning holds. -/
theorem CheckedLiteral.passes_eq
    (meaning : CheckedLiteral)
    (v : Value) :
    meaning.passes v =
      match meaning.holds v with
      | .ok b => b
      | .error _ => false := by
  have hLeaf : (Lowered.literal .scrutinee meaning).test.IsLeaf := by
    cases meaning <;> trivial
  unfold passes
  rw [Test.eval_leaf _ _ _ hLeaf, Lowered.reading_literal rfl meaning]

/- Primitives mean themselves, but symbols mean booleans. -/
theorem eq_or_bool_of_checkPrimitive
    {type : String}
    {kind : Primitive}
    {l k : Literal}
    (h : checkPrimitive type kind l = .ok (.value k)) :
    k = l ∨ kind = .bool ∧ ∃ name b, l = .sym name ∧ k = .bool b := by
  have hExpect :
      ∀ {fits : Bool} {k' : Literal},
        checkPrimitive.expect type l fits k' = .ok (.value k) →
        fits = true ∧ k = k' := by
    intro fits k' hFits
    unfold checkPrimitive.expect at hFits
    split at hFits
    · rename_i hTrue
      cases hFits
      exact ⟨hTrue, rfl⟩
    · cases hFits
  have hFloat :
      checkFloat type kind l = .ok (.value k) → k = l := by
    intro hFits
    unfold checkFloat at hFits
    split at hFits
    · cases hFits
      rfl
    · cases hFits
  unfold checkPrimitive at h
  split at h
  · split at h
    · exact .inl (hFloat h)
    · unfold checkInteger at h
      split at h
      · split at h
        · split at h
          · cases h
            exact .inl rfl
          · cases h
        · cases h
          exact .inl rfl
      · cases h
  · exact .inl (hFloat h)
  · exact .inl (hExpect h).2
  · exact .inl (hExpect h).2
  · exact .inl (hExpect h).2
  · rename_i name
    split at h
    · rcases hExpect h with ⟨hBool, rfl⟩
      exact .inr ⟨beq_iff_eq.mp hBool, name, true, rfl, rfl⟩
    · split at h
      · rcases hExpect h with ⟨hBool, rfl⟩
        exact .inr ⟨beq_iff_eq.mp hBool, name, false, rfl, rfl⟩
      · cases h
  · cases h

namespace SchemaPool

variable {p : SchemaPool}
variable {marker : Char}
variable {id : SchemaId}
variable {l : Literal}
variable {meaning : CheckedLiteral}

/- What a literal means depends on one schema of the pool. -/
theorem checkLiteral_congr
    {q : SchemaPool}
    (h : q.get id = p.get id) :
    q.checkLiteral marker id l = p.checkLiteral marker id l := by
  unfold checkLiteral Schema.checkLiteral
  rw [h]

/-
  The meaning of a literal as it is written: itself, also for
  nil, a boolean in place of a symbol, or the member that a
  name stands for.
-/
theorem written_of_checkLiteral
    (h : p.checkLiteral marker id l = .ok meaning) :
    (meaning = .nil ∧ l = .nil) ∨
    (meaning = .none ∧ l = .nil ∧ (p.get id).kind = .optional) ∨
    meaning = .value l ∨
    (∃ name b, l = .sym name ∧ meaning = .value (.bool b) ∧
      (p.get id).kind = .primitive ∧
      (p.get id).primitive = some .bool) ∨
    ∃ name m, l = .sym name ∧ meaning = .member m ∧
      m ∈ (p.get id).members ∧ (p.get id).kind = .enumeration ∧
      checkMember marker (p.get id) name = .ok (.member m) := by
  have hKindOf :
      ∀ {kind}, (p.get id).structuralKind = kind →
        kind ∉ [.record, .union] → (p.get id).kind = kind :=
    Schema.kind_of_structuralKind
  unfold checkLiteral Schema.checkLiteral at h
  dsimp only at h
  split at h
  · rename_i hNil
    cases h
    exact .inl ⟨rfl, beq_iff_eq.mp (Bool.and_eq_true_iff.mp hNil).1⟩
  · split at h
    · cases h
      exact .inr (.inl ⟨rfl, rfl, hKindOf (by assumption) (by decide)⟩)
    · cases h
      exact .inl ⟨rfl, rfl⟩
    · cases h
      exact .inr (.inr (.inl rfl))
    · cases h
    · split at h
      · rename_i kind hPrimitive
        rcases exists_of_checkPrimitive h with ⟨k, rfl⟩
        rcases eq_or_bool_of_checkPrimitive h with
          rfl | ⟨rfl, name, b, rfl, rfl⟩
        · exact .inr (.inr (.inl rfl))
        · exact .inr (.inr (.inr (.inl ⟨name, b, rfl, rfl,
            hKindOf (by assumption) (by decide), hPrimitive⟩)))
      · cases h
    · rcases exists_of_checkMember h with ⟨m, hm, rfl⟩
      exact .inr (.inr (.inr (.inr ⟨_, m, rfl, rfl, hm,
        hKindOf (by assumption) (by decide), h⟩)))
    · cases h

/- The values of an enumeration are its members. -/
theorem HasValue.exists_member
    {v : Value}
    (h : p.HasValue id v)
    (hKind : (p.get id).kind = .enumeration) :
    ∃ m ∈ (p.get id).members, v = .member m.name m.ordinal := by
  cases h with
  | @member _ m _ hm => exact ⟨m, hm, rfl⟩
  | unknown hOther => cases hKind.symm.trans hOther
  | primitive hOther => cases hKind.symm.trans hOther
  | absent hOther => cases hKind.symm.trans hOther
  | present hOther => cases hKind.symm.trans hOther
  | nil hOther => cases hKind.symm.trans hOther
  | pointee hOther => cases hKind.symm.trans hOther
  | composite hOther =>
      rw [hKind] at hOther
      simp at hOther

/- An optional is absent or present. -/
theorem HasValue.eq_none_or_some
    {v : Value}
    (h : p.HasValue id v)
    (hKind : (p.get id).kind = .optional) :
    v = .none ∨ ∃ w, v = .some w := by
  cases h with
  | absent => exact .inl rfl
  | @present _ _ w => exact .inr ⟨w, rfl⟩
  | unknown hOther => cases hKind.symm.trans hOther
  | primitive hOther => cases hKind.symm.trans hOther
  | member hOther => cases hKind.symm.trans hOther
  | nil hOther => cases hKind.symm.trans hOther
  | pointee hOther => cases hKind.symm.trans hOther
  | composite hOther =>
      rw [hKind] at hOther
      simp at hOther

/-
  A literal and its meaning tell all values of a type apart
  alike just if it is meant as it is written.
-/
theorem equals_eq_passes_iff
    (h : p.checkLiteral marker id l = .ok meaning) :
    (∀ v, p.HasValue id v → v.equals l = meaning.passes v) ↔
      p.MeantAsWritten id l meaning := by
  rcases written_of_checkLiteral h with
    ⟨rfl, rfl⟩ | ⟨rfl, rfl, hKind⟩ | rfl |
      ⟨name, b, rfl, rfl, hKind, hBool⟩ |
      ⟨name, m, rfl, rfl, hm, hKind, -⟩
  · constructor
    · exact fun hSame => ⟨nofun, nofun, fun _ hAbsent =>
        nomatch hSame .none hAbsent⟩
    · intro hMeant v hv
      cases v with
      | none => exact absurd hv (hMeant.nil rfl)
      | _ => rfl
  · refine ⟨fun _ => ⟨nofun, nofun, nofun⟩, fun _ v hv => ?_⟩
    rcases hv.eq_none_or_some hKind with rfl | ⟨w, rfl⟩ <;> rfl
  · refine ⟨fun _ => ⟨?_, nofun, nofun⟩, fun _ v _ => ?_⟩
    · rintro k ⟨⟩
      rfl
    · rw [CheckedLiteral.passes_eq]
      rfl
  · -- A symbol is equal to no boolean.
    constructor
    · intro hSame
      have hOwn := hSame (.bool b) (.primitive hKind hBool rfl)
      rw [CheckedLiteral.passes_eq] at hOwn
      change false = (b == b) at hOwn
      rw [beq_self_eq_true] at hOwn
      cases hOwn
    · intro hMeant
      cases hMeant.value _ rfl
  · have hMember :
        ∀ m' : Member,
          ((Value.member m'.name m'.ordinal).equals (.sym name) =
            CheckedLiteral.passes (.member m)
              (.member m'.name m'.ordinal)) ↔
          (Literal.sym name = .sym m'.name ↔ m'.ordinal = m.ordinal) := by
      intro m'
      rw [CheckedLiteral.passes_eq]
      change (m'.name == name) = (m'.ordinal == m.ordinal) ↔ _
      rw [Bool.eq_iff_iff, beq_iff_eq, beq_iff_eq, Literal.sym.injEq,
        eq_comm (a := name)]
    constructor
    · intro hSame
      refine ⟨nofun, ?_, nofun⟩
      rintro _ ⟨⟩ m' hm'
      exact (hMember m').mp (hSame _ (.member hKind hm'))
    · intro hMeant v hv
      rcases hv.exists_member hKind with ⟨m', hm', rfl⟩
      exact (hMember m').mpr (hMeant.member m rfl m' hm')

/-
  Where members have different names and numbers, those that
  are named in full are meant as they are written.
-/
theorem meantAsWritten_iff_full
    (h : p.checkLiteral marker id l = .ok meaning)
    (hKind : (p.get id).kind = .enumeration)
    (hNames : ((p.get id).members.map Member.name).Nodup)
    (hOrdinals : ((p.get id).members.map Member.ordinal).Nodup) :
    p.MeantAsWritten id l meaning ↔ (p.get id).NamesInFull l := by
  have hRead : (p.get id).ListsMembers (p.get id).members :=
    .inl ⟨hKind, rfl⟩
  rcases written_of_checkLiteral h with
    ⟨rfl, rfl⟩ | ⟨rfl, rfl, hOther⟩ | rfl |
      ⟨name, b, rfl, rfl, hOther, -⟩ |
      ⟨name, m, rfl, rfl, hm, -, hCheck⟩
  · rcases meaning_of_listsMembers hRead h with
      ⟨m, -, hEq⟩ | ⟨-, -, b, hEq⟩ <;> cases hEq
  · cases hKind.symm.trans hOther
  · rcases meaning_of_listsMembers hRead h with
      ⟨m, -, hEq⟩ | ⟨-, hOther, -⟩
    · cases hEq
    · cases hKind.symm.trans hOther
  · cases hKind.symm.trans hOther
  · constructor
    · rintro hMeant - _ ⟨⟩
      cases (hMeant.member m rfl m hm).mpr rfl
      exact List.mem_map_of_mem hm
    · intro hFull
      have hName : m.name = name :=
        SetMember.eq_of_checkMember_of_mem hCheck (hFull hKind name rfl)
      refine ⟨nofun, ?_, nofun⟩
      rintro _ ⟨⟩ m' hm'
      constructor
      · rintro ⟨⟩
        rw [eq_of_names_nodup hNames hm' hm hName.symm]
      · intro hOrdinal
        rw [eq_of_ordinals_nodup hOrdinals hm' hm hOrdinal, hName]

end SchemaPool

end MatchCompiler

------------------------------------------------------------
-- Entries
------------------------------------------------------------

namespace MatchCompiler

/-
  What an entry with a key asks of a map, whatever the pattern
  of its value is: a key must pass the literal pattern that the
  key means, and the pattern is then asked of the value of the
  first such key.
-/
def CheckedLiteral.Selects
    (meaning : CheckedLiteral)
    (key : Literal)
    (entries : List (Value × Value)) : Prop :=
  ∀ (q : Checked) (o : LoweringOptions) (inside : Bool) (a : Access)
    (st : LoweringState) (σ : Type) (host : GuardHost σ)
    (root : Value) (bindings : AccessBindings) (c : Choices) (s : σ),
    a.resolve root c = .ok (.map entries) →
    let part := ((q.lower o inside (.mapValue a key)).run st).1
    let tests :=
      ((Checked.lowerEntries o [(key, q)] inside a).run st).1.map
        Lowered.test
    match entries.find? (fun e => meaning.passes e.1) with
    | Option.some e =>
        (Access.mapValue a key).resolve root c = .ok e.2 ∧
        Test.evalAll host root bindings tests (c, s) =
          part.test.eval host root bindings (c, s)
    | Option.none =>
        Test.evalAll host root bindings tests (c, s) =
          (.ok false, (c, s))

/- The tests of an entry: the key is there, and what follows. -/
theorem Checked.evalAll_entry
    {σ : Type}
    {root : Value}
    {a : Access}
    {c : Choices}
    {entries : List (Value × Value)}
    (host : GuardHost σ)
    (bindings : AccessBindings)
    (hRead : a.resolve root c = .ok (.map entries))
    (key : Literal)
    (t : Test)
    (s : σ) :
    Test.evalAll host root bindings [.hasKey a key, t] (c, s) =
      if entries.any (fun e => e.1.equals key) then
        t.eval host root bindings (c, s)
      else
        (.ok false, (c, s)) := by
  have hAsked :
      (Test.hasKey a key).eval host root bindings (c, s) =
        (.ok (entries.any fun e => e.1.equals key), (c, s)) := by
    rw [Test.eval_leaf (t := .hasKey a key) _ _ _ trivial,
      Test.reading_of_query rfl hRead]
    rfl
  rw [Test.evalAll_cons, hAsked, Test.evalAll_singleton]
  cases entries.any fun e => e.1.equals key <;> rfl

namespace CheckedLiteral

variable {meaning : CheckedLiteral}
variable {key : Literal}
variable {entries : List (Value × Value)}

/- Keys that are told apart alike are selected alike. -/
theorem selects_of_equals
    (h : ∀ e ∈ entries, e.1.equals key = meaning.passes e.1) :
    meaning.Selects key entries := by
  intro q o inside a st σ host root bindings c s hRead
  dsimp only
  have hFind :
      entries.find? (fun e => e.1.equals key) =
        entries.find? (fun e => meaning.passes e.1) :=
    List.find?_congr h
  have hTests := Checked.evalAll_entry host bindings hRead key
    ((q.lower o inside (.mapValue a key)).run st).1.test s
  rw [← hFind]
  split
  · rename_i e hFound
    have hAny : entries.any (fun e => e.1.equals key) = true := by
      rw [← List.isSome_find?, hFound]
      rfl
    rw [hAny, if_pos rfl] at hTests
    refine ⟨?_, hTests⟩
    simp only [Access.resolve, hRead]
    change Value.readKey key (.map entries) = .ok e.2
    simp only [Value.readKey, Value.entry?, hFound, Option.map_some]
  · rename_i hNone
    have hAny : entries.any (fun e => e.1.equals key) = false := by
      rw [← List.isSome_find?, hNone]
      rfl
    rw [hAny, if_neg Bool.false_ne_true] at hTests
    exact hTests

/- A single key that is selected is told apart alike. -/
theorem equals_of_selects
    {u w : Value}
    (h : meaning.Selects key [(u, w)]) :
    u.equals key = meaning.passes u := by
  have hHere := h (.wildcard {}) {} false .scrutinee {} Unit
    (fun _ _ => pure true) (.map [(u, w)]) [] .empty () rfl
  have hRead :
      Access.scrutinee.resolve (.map [(u, w)]) .empty =
        .ok (.map [(u, w)]) := rfl
  have hTests := Checked.evalAll_entry (fun _ _ => pure true) [] hRead
    key Test.always ()
  dsimp only at hHere
  rw [List.find?_singleton] at hHere
  rw [List.any_cons, List.any_nil, Bool.or_false] at hTests
  cases hEquals : u.equals key <;> cases hPasses : meaning.passes u
  · rfl
  · -- The value of the key cannot be read.
    rw [hPasses] at hHere
    have hRead := hHere.1
    simp only [Access.resolve] at hRead
    change Value.readKey key (.map [(u, w)]) = .ok w at hRead
    simp only [Value.readKey, Value.entry?, List.find?_singleton,
      hEquals, Bool.false_eq_true, if_false, Option.map_none] at hRead
    cases hRead
  · -- The key is there, and its value matches a wildcard.
    rw [hPasses] at hHere
    rw [hEquals, if_pos rfl] at hTests
    cases hHere.symm.trans hTests
  · rfl

end CheckedLiteral

end MatchCompiler

------------------------------------------------------------
-- Map Patterns
------------------------------------------------------------

namespace MatchCompiler

namespace Pattern

variable {ctx : CheckContext}

/-
  The keys of entries have a meaning at the key type, and the
  patterns beside them are accepted at the value type.
-/
theorem sound_entryKeys
    (key value : SchemaId)
    (es : List (Literal × Pattern)) :
    Sound (checkEntries ctx key value es) fun s r _ =>
      s.registry.Settled → key < s.pool.size → value < s.pool.size →
      List.Forall₂
        (fun given made => made.1 = given.1 ∧
          AcceptedSince ctx s.registry given.2 value made.2 ∧
          ∃ meaning,
            s.pool.checkLiteral ctx.marker key given.1 = .ok meaning)
        es r := by
  induction es with
  | nil => exact Sound.pure fun _ _ _ _ => .nil
  | cons e es ih =>
      refine Sound.pool.bind fun p => ?_
      cases hMeaning : p.checkLiteral ctx.marker key e.1 with
      | error cause =>
          dsimp only
          refine (Sound.typeName key).bind fun _ => ?_
          exact (Sound.report _).after fun _ => ih
      | ok meaning =>
          dsimp only
          have hPart : e.2.SoundCheck ctx := e.2.sound_check
          refine (hPart value).bind fun q => ?_
          refine ih.bind fun rest => ?_
          refine Sound.pure fun s s₂ hRest s₁ hAccepts s₀ hPool hs hKey
            hValue => ?_
          rcases hPool with ⟨rfl, rfl⟩
          have hLater := hAccepts.1.later hs hValue
          rcases hLater.settled hs with ⟨hs₁, hGrows⟩
          have hSize := hGrows.pool.size_le
          refine .cons ⟨rfl, ⟨_, _, .refl, hAccepts.1⟩, _, hMeaning⟩ ?_
          refine (hRest hs₁ (hKey.trans_le hSize)
            (hValue.trans_le hSize)).imp ?_
          rintro given made ⟨hSame, hAccepted, meaning', hMeaning'⟩
          refine ⟨hSame, hAccepted.of_later hLater, meaning', ?_⟩
          rw [← hMeaning']
          exact (SchemaPool.checkLiteral_congr
            (hGrows.pool.get_eq hKey)).symm

/- The entries of a map pattern that is checked successfully. -/
theorem exists_entries_of_check
    {span : Span}
    {es : List (Literal × Pattern)}
    {id : SchemaId}
    {s s' : CheckState}
    {checked : Checked}
    (hCheck :
      ((Pattern.map span es).check ctx id).run s = (checked, s'))
    (hProblems : s'.problems = s.problems)
    (hSettled : s.registry.Settled) :
    ∃ key value entries,
      (s.registry.pool.get id).key = some key ∧
      (s.registry.pool.get id).value = some value ∧
      checked = .map span entries ∧
      List.Forall₂
        (fun given made => made.1 = given.1 ∧
          AcceptedSince ctx s.registry given.2 value made.2 ∧
          ∃ meaning,
            s.registry.pool.checkLiteral ctx.marker key given.1 =
              .ok meaning)
        es entries := by
  have hSound :
      Sound ((Pattern.map span es).check ctx id) fun s checked _ =>
        s.registry.Settled →
        ∃ key value entries,
          (s.pool.get id).key = some key ∧
          (s.pool.get id).value = some value ∧
          checked = .map span entries ∧
          List.Forall₂
            (fun given made => made.1 = given.1 ∧
              AcceptedSince ctx s.registry given.2 value made.2 ∧
              ∃ meaning,
                s.pool.checkLiteral ctx.marker key given.1 =
                  .ok meaning)
            es entries := by
    refine (Sound.schema id).bind fun t => ?_
    split
    · rename_i key value hKey hValue
      refine (sound_entryKeys key value es).bind fun entries => ?_
      refine Sound.pure fun s s₁ hEntries s₀ hSchema hs => ?_
      rcases hSchema with ⟨rfl, rfl⟩
      have hOwn := hs.closed.pool.slots id
      exact ⟨key, value, entries, hKey, hValue, rfl,
        hEntries hs (hOwn.key key hKey) (hOwn.value value hValue)⟩
    · exact Sound.reject span _
  exact hSound.of_run hCheck hProblems hSettled

end Pattern

/-
  The entries of a map pattern that is checked without a
  problem. Each has a pattern that is accepted at the value
  type, and a key with a meaning at the key type. The tests of
  the entry select by the meaning, in all maps with keys of the
  key type and values of any kind that there is, just if the
  key is meant as it is written.
-/
theorem mapEntries_select_iff
    {ctx : CheckContext}
    {span : Span}
    {es : List (Literal × Pattern)}
    {id : SchemaId}
    {s s' : CheckState}
    {checked : Checked}
    (hCheck :
      ((Pattern.map span es).check ctx id).run s = (checked, s'))
    (hProblems : s'.problems = s.problems)
    (hSettled : s.registry.Settled)
    {IsValue : Value → Prop}
    (hInhabited : ∃ w, IsValue w) :
    ∃ key value entries,
      (s.registry.pool.get id).key = some key ∧
      (s.registry.pool.get id).value = some value ∧
      checked = .map span entries ∧
      List.Forall₂
        (fun given made => made.1 = given.1 ∧
          AcceptedSince ctx s.registry given.2 value made.2 ∧
          ∃ meaning,
            s.registry.pool.checkLiteral ctx.marker key given.1 =
              .ok meaning ∧
            ((∀ m : List (Value × Value),
                (∀ e ∈ m, s.registry.pool.HasValue key e.1 ∧
                  IsValue e.2) →
                meaning.Selects given.1 m) ↔
              s.registry.pool.MeantAsWritten key given.1 meaning))
        es entries := by
  rcases Pattern.exists_entries_of_check hCheck hProblems hSettled with
    ⟨key, value, entries, hKey, hValue, hChecked, hEntries⟩
  refine ⟨key, value, entries, hKey, hValue, hChecked,
    hEntries.imp ?_⟩
  rintro given made ⟨hSame, hAccepted, meaning, hMeaning⟩
  refine ⟨hSame, hAccepted, meaning, hMeaning, ?_⟩
  rw [← SchemaPool.equals_eq_passes_iff hMeaning]
  constructor
  · intro hSelects v hv
    rcases hInhabited with ⟨w, hw⟩
    refine CheckedLiteral.equals_of_selects (w := w) (hSelects _ ?_)
    exact List.forall_mem_singleton.mpr ⟨hv, hw⟩
  · intro hEquals m hm
    exact CheckedLiteral.selects_of_equals fun e he =>
      hEquals e.1 (hm e he).1

/- An enumeration, and the maps from it to the integers. -/
def kindCounts : TypeTable :=
  { descriptors :=
      #[{ name := "Kind"
          shape := .enumeration [⟨"nkIdent", 0⟩, ⟨"nkCall", 1⟩] },
        { name := "int", shape := .primitive .i64 },
        { name := "Counts"
          shape := .container .map [.described 0, .described 1] }] }

/- The schemas that are extracted for the maps. -/
def kindCountSchemas : Registry :=
  (Registry.schemaOf {} kindCounts 2).1

/- A pattern for the number of one kind. -/
def kindCount (name : String) : Pattern :=
  .map {} [(.sym name, .bind {} "n")]

theorem kindCountSchemas_settled :
    kindCountSchemas.Settled :=
  ((Registry.use_schemaOf {} kindCounts 2).settled
    (Registry.settled_fresh 'k')).1

theorem kindCountSchemas_key :
    kindCountSchemas.pool.get 1 =
      { kind := .enumeration
        name := "Kind"
        members := [⟨"nkIdent", 0⟩, ⟨"nkCall", 1⟩]
        descriptor := some 0 } := by
  decide +kernel

theorem kindCountSchemas_map :
    (kindCountSchemas.pool.get 0).key = some 1 := by
  decide +kernel

/- The member may be named in full, or without the marker. -/
theorem kindCountSchemas_names
    {name : String}
    (h : name = "nkIdent" ∨ name = "Ident") :
    kindCountSchemas.pool.checkLiteral 'k' 1 (.sym name) =
      .ok (.member ⟨"nkIdent", 0⟩) := by
  unfold SchemaPool.checkLiteral
  rw [kindCountSchemas_key]
  rcases h with rfl | rfl <;> rfl

/- What checking the pattern for a name gives. -/
def kindCountChecked (name : String) : Checked × CheckState :=
  ((kindCount name).check { table := kindCounts, marker := 'k' } 0).run
    { registry := kindCountSchemas }

/- A key that is named in full selects the member's number. -/
theorem fullNameKey_selects :
    ∃ made,
      (kindCountChecked "nkIdent").1 = .map {} [made] ∧
      made.1 = .sym "nkIdent" ∧
      ∀ m : List (Value × Value),
        (∀ e ∈ m, kindCountSchemas.pool.HasValue 1 e.1 ∧
          kindCountSchemas.pool.HasValue 2 e.2) →
        CheckedLiteral.Selects (.member ⟨"nkIdent", 0⟩)
          (.sym "nkIdent") m := by
  have hInhabited : ∃ w, kindCountSchemas.pool.HasValue 2 w :=
    ⟨.int 0, .primitive (by decide +kernel) (by decide +kernel)
      (Eq.refl Primitive.i64.isInteger)⟩
  have hProblems : (kindCountChecked "nkIdent").2.problems = [] :=
    List.eq_nil_of_length_eq_zero (by decide +kernel)
  rcases mapEntries_select_iff Prod.mk.eta.symm hProblems
      kindCountSchemas_settled hInhabited with
    ⟨key, value, entries, hKey, -, hChecked, hEntries⟩
  cases kindCountSchemas_map.symm.trans hKey
  cases hEntries with
  | @cons _ made _ _ hMade hNone =>
      cases hNone
      rcases hMade with ⟨hSame, -, meaning, hMeaning, hIff⟩
      cases (kindCountSchemas_names (.inl rfl)).symm.trans hMeaning
      refine ⟨made, hChecked, hSame, hIff.mpr ?_⟩
      refine (SchemaPool.meantAsWritten_iff_full hMeaning ?_ ?_ ?_).mpr ?_
      all_goals rw [kindCountSchemas_key]
      · decide
      · decide
      · rintro - name ⟨⟩
        exact List.mem_cons_self

/- A shortened name has a meaning, and selects nothing. -/
theorem shortNameKey_selects_nothing :
    (kindCountChecked "Ident").2.problems = [] ∧
    kindCountSchemas.pool.checkLiteral 'k' 1 (.sym "Ident") =
      .ok (.member ⟨"nkIdent", 0⟩) ∧
    kindCountSchemas.pool.HasValue 1 (.member "nkIdent" 0) ∧
    ¬ CheckedLiteral.Selects (.member ⟨"nkIdent", 0⟩) (.sym "Ident")
      [(.member "nkIdent" 0, .int 5)] := by
  have hKind : (kindCountSchemas.pool.get 1).kind = .enumeration := by
    rw [kindCountSchemas_key]
  have hMember :
      (⟨"nkIdent", 0⟩ : Member) ∈
        (kindCountSchemas.pool.get 1).members := by
    rw [kindCountSchemas_key]
    exact List.mem_cons_self
  refine ⟨List.eq_nil_of_length_eq_zero (by decide +kernel),
    kindCountSchemas_names (.inr rfl), .member hKind hMember, fun h => ?_⟩
  cases CheckedLiteral.equals_of_selects h

end MatchCompiler
