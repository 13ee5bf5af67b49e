import MatchCompiler.Proofs.Extraction

/-
  This file shows that the names of generic instances can be
  read back.

  The name of an instance is that of its template, with the
  names of the arguments in brackets. If the names in a table
  hold no brackets and no commas, then every bracket in the
  name of an instance is closed, and no comma stands outside
  brackets. So the name tells the template's and the names of
  all arguments.

  Key definitions include:
    * `Closes`
    * `PlainName`
    * `SchemaPool.namedArguments`

  Key theorems include:
    * `Closes.cancel`
    * `afterArgument_inj`
    * `SchemaPool.closes_instanceName`
    * `SchemaPool.instanceName_inj`
-/

------------------------------------------------------------
-- Texts With Brackets
------------------------------------------------------------

namespace MatchCompiler

/-
  A text that closes a number of brackets and all that it
  opens, and has no comma outside brackets.
-/
inductive Closes : Nat → List Char → Prop
| nil : Closes 0 []
| opening
    {depth : Nat}
    {cs : List Char}
    (hRest : Closes (depth + 1) cs) :
    Closes depth ('[' :: cs)
| closing
    {depth : Nat}
    {cs : List Char}
    (hRest : Closes depth cs) :
    Closes (depth + 1) (']' :: cs)
| other
    {depth : Nat}
    {c : Char}
    {cs : List Char}
    (hOpening : c ≠ '[')
    (hClosing : c ≠ ']')
    (hComma : depth = 0 → c ≠ ',')
    (hRest : Closes depth cs) :
    Closes depth (c :: cs)

/- A text that an argument can stand before. -/
def EndsArgument (cs : List Char) : Prop :=
  ∀ c ∈ cs.head?, c = ',' ∨ c = ']'

/- What stands after an argument: the others, and a bracket. -/
def afterArgument : List (List Char) → List Char
| [] => [']']
| a :: as => ',' :: ' ' :: (a ++ afterArgument as)

variable {a b u v : List Char}
variable {as bs : List (List Char)}

namespace Closes

theorem append
    {m n : Nat}
    (ha : Closes m a)
    (hb : Closes n b) :
    Closes (m + n) (a ++ b) := by
  induction ha with
  | nil => rwa [Nat.zero_add]
  | opening _ ih =>
      rw [Nat.add_right_comm] at ih
      exact .opening ih
  | closing _ ih =>
      rw [Nat.add_right_comm]
      exact .closing ih
  | other hOpening hClosing hComma _ ih =>
      exact .other hOpening hClosing
        (fun hZero => hComma (Nat.eq_zero_of_add_eq_zero_right hZero)) ih

/- Such a text does not begin with what ends an argument. -/
theorem eq_nil_of_ends
    (h : Closes 0 a)
    (hEnds : EndsArgument (a ++ u)) :
    a = [] := by
  cases h with
  | nil => rfl
  | opening => rcases hEnds '[' rfl with hEq | hEq <;> cases hEq
  | other _ hClosing hComma =>
      rcases hEnds _ rfl with hEq | hEq
      · exact absurd hEq (hComma rfl)
      · exact absurd hEq hClosing

/- Where such a text ends can be told from what follows. -/
theorem cancel
    {depth : Nat}
    (ha : Closes depth a)
    (hb : Closes depth b)
    (hu : EndsArgument u)
    (hv : EndsArgument v)
    (h : a ++ u = b ++ v) :
    a = b ∧ u = v := by
  -- Both texts go on alike, so that neither ends first.
  induction ha generalizing b with
  | nil =>
      subst h
      cases hb.eq_nil_of_ends hu
      exact ⟨rfl, rfl⟩
  | opening hMore ih =>
      cases hb with
      | nil =>
          subst h
          cases (Closes.opening hMore).eq_nil_of_ends hv
      | opening hRest =>
          rcases ih hRest (List.tail_eq_of_cons_eq h) with ⟨rfl, hEnd⟩
          exact ⟨rfl, hEnd⟩
      | closing => cases List.head_eq_of_cons_eq h
      | other hOpening =>
          exact absurd (List.head_eq_of_cons_eq h).symm hOpening
  | closing _ ih =>
      cases hb with
      | opening => cases List.head_eq_of_cons_eq h
      | closing hRest =>
          rcases ih hRest (List.tail_eq_of_cons_eq h) with ⟨rfl, hEnd⟩
          exact ⟨rfl, hEnd⟩
      | other _ hClosing =>
          exact absurd (List.head_eq_of_cons_eq h).symm hClosing
  | other hOpening hClosing hComma hMore ih =>
      cases hb with
      | nil =>
          subst h
          cases (Closes.other hOpening hClosing hComma hMore).eq_nil_of_ends
            hv
      | opening => exact absurd (List.head_eq_of_cons_eq h) hOpening
      | closing => exact absurd (List.head_eq_of_cons_eq h) hClosing
      | other _ _ _ hRest =>
          rcases ih hRest (List.tail_eq_of_cons_eq h) with ⟨rfl, hEnd⟩
          exact ⟨by rw [List.head_eq_of_cons_eq h], hEnd⟩

end Closes

theorem endsArgument_afterArgument
    (as : List (List Char)) :
    EndsArgument (afterArgument as) := by
  rintro c hMem
  cases as with
  | nil => exact .inr (Option.some.inj hMem).symm
  | cons => exact .inl (Option.some.inj hMem).symm

theorem closes_afterArgument
    (h : ∀ a ∈ as, Closes 0 a) :
    Closes 1 (afterArgument as) := by
  induction as with
  | nil => exact .closing .nil
  | cons a as ih =>
      rcases List.forall_mem_cons.mp h with ⟨hFirst, hRest⟩
      refine .other (by decide) (by decide) nofun ?_
      refine .other (by decide) (by decide) nofun ?_
      have hAppend := hFirst.append (ih hRest)
      rwa [Nat.zero_add] at hAppend

/- The arguments can be read back. -/
theorem afterArgument_inj
    (has : ∀ a ∈ as, Closes 0 a)
    (hbs : ∀ b ∈ bs, Closes 0 b)
    (h : afterArgument as = afterArgument bs) :
    as = bs := by
  induction as generalizing bs with
  | nil =>
      cases bs with
      | nil => rfl
      | cons => cases List.head_eq_of_cons_eq h
  | cons a as ih =>
      cases bs with
      | nil => cases List.head_eq_of_cons_eq h
      | cons b bs =>
          rcases List.forall_mem_cons.mp has with ⟨ha, has⟩
          rcases List.forall_mem_cons.mp hbs with ⟨hb, hbs⟩
          have hTexts := List.tail_eq_of_cons_eq (List.tail_eq_of_cons_eq h)
          rcases ha.cancel hb (endsArgument_afterArgument as)
              (endsArgument_afterArgument bs) hTexts with ⟨hFirst, hAfter⟩
          rw [hFirst, ih has hbs hAfter]

/- No argument is longer than all that stands after a first. -/
theorem length_le_afterArgument
    (h : a ∈ as) :
    a.length ≤ (afterArgument as).length := by
  induction as with
  | nil => cases h
  | cons b as ih =>
      simp only [afterArgument, List.length_cons, List.length_append]
      rcases List.mem_cons.mp h with rfl | h
      · omega
      · have := ih h
        omega

theorem intercalate_append_bracket
    (a : List Char)
    (as : List (List Char)) :
    List.intercalate [',', ' '] (a :: as) ++ [']'] =
      a ++ afterArgument as := by
  induction as generalizing a with
  | nil => simp [afterArgument]
  | cons b as ih =>
      rw [List.intercalate_cons_cons, List.append_assoc, List.append_assoc,
        ih b]
      rfl

end MatchCompiler

------------------------------------------------------------
-- Names With Arguments
------------------------------------------------------------

namespace MatchCompiler

/- A name that holds no bracket and no comma. -/
def PlainName (name : String) : Prop :=
  ∀ c ∈ name.toList, c ≠ '[' ∧ c ≠ ']' ∧ c ≠ ','

instance
    (name : String) :
    Decidable (PlainName name) :=
  List.decidableBAll _ name.toList

theorem PlainName.closes
    {name : String}
    (h : PlainName name) :
    Closes 0 name.toList := by
  unfold PlainName at h
  generalize name.toList = cs at h
  induction cs with
  | nil => exact .nil
  | cons c cs ih =>
      rcases List.forall_mem_cons.mp h with ⟨hFirst, hRest⟩
      exact .other hFirst.1 hFirst.2.1 (fun _ => hFirst.2.2) (ih hRest)

/- What follows a plain name does not go on with it. -/
theorem PlainName.cancel
    {name name' : String}
    (h : PlainName name)
    (h' : PlainName name')
    {u v : List Char}
    (hu : ∀ c ∈ u.head?, c = '[')
    (hv : ∀ c ∈ v.head?, c = '[')
    (hEq : name.toList ++ u = name'.toList ++ v) :
    name = name' ∧ u = v := by
  have hTake :
      ∀ {name : String} {u : List Char}, PlainName name →
        (∀ c ∈ u.head?, c = '[') →
        (name.toList ++ u).takeWhile (· != '[') = name.toList := by
    intro name u h hu
    rw [List.takeWhile_append_of_pos
      fun c hc => bne_iff_ne.mpr (h c hc).1]
    cases u with
    | nil => exact List.append_nil _
    | cons c cs =>
        rw [hu c rfl]
        exact List.append_nil _
  have hName : name.toList = name'.toList := by
    rw [← hTake h hu, hEq, hTake h' hv]
  refine ⟨String.toList_inj.mp hName, ?_⟩
  rw [hName] at hEq
  exact List.append_cancel_left hEq

namespace SchemaPool

variable {p : SchemaPool}
variable {d d' : TypeDescriptor}
variable {env env' : List SchemaId}

/- What follows the name of the descriptor. -/
def namedArguments
    (p : SchemaPool)
    (d : TypeDescriptor)
    (env : List SchemaId) : List Char :=
  match d.params, env with
  | 0, _ => []
  | _, [] => []
  | _ + 1, s :: env =>
      '[' :: ((p.nameOf s).toList ++
        afterArgument (env.map fun s => (p.nameOf s).toList))

theorem toList_instanceName
    (p : SchemaPool)
    (d : TypeDescriptor)
    (env : List SchemaId) :
    (p.instanceName d env).toList =
      d.name.toList ++ p.namedArguments d env := by
  unfold instanceName namedArguments
  cases hParams : d.params with
  | zero => simp
  | succ n =>
      cases env with
      | nil => simp
      | cons s env =>
          have hTexts := intercalate_append_bracket (p.nameOf s).toList
            (env.map fun s => (p.nameOf s).toList)
          simpa [toString, String.toList_intercalate, Function.comp_def]
            using hTexts

theorem head_namedArguments
    (p : SchemaPool)
    (d : TypeDescriptor)
    (env : List SchemaId) :
    ∀ c ∈ (p.namedArguments d env).head?, c = '[' := by
  intro c hMem
  unfold namedArguments at hMem
  split at hMem
  · cases hMem
  · cases hMem
  · exact (Option.some.inj hMem).symm

/- A plain name is that of no descriptor but one so called. -/
theorem name_eq_of_instanceName_eq
    {name : String}
    (hName : PlainName d.name)
    (hPlain : PlainName name)
    (h : p.instanceName d env = name) :
    d.name = name := by
  rw [← String.toList_inj, toList_instanceName,
    ← List.append_nil name.toList] at h
  exact (hName.cancel hPlain (p.head_namedArguments d env) (by simp) h).1

theorem closes_instanceName
    (hName : PlainName d.name)
    (hEnv : d.params ≠ 0 → ∀ s ∈ env, Closes 0 (p.nameOf s).toList) :
    Closes 0 (p.instanceName d env).toList := by
  rw [toList_instanceName]
  refine hName.closes.append (n := 0) ?_
  unfold namedArguments
  split
  · exact .nil
  · exact .nil
  · rename_i n s env hParams
    have hAll := hEnv (hParams ▸ Nat.succ_ne_zero n)
    rcases List.forall_mem_cons.mp hAll with ⟨hFirst, hRest⟩
    refine .opening (hFirst.append (closes_afterArgument ?_))
    exact List.forall_mem_map.mpr hRest

/- The names of the arguments are shorter. -/
theorem length_nameOf_lt
    (hParams : d.params ≠ 0)
    {s : SchemaId}
    (hMem : s ∈ env) :
    (p.nameOf s).toList.length < (p.instanceName d env).toList.length := by
  rw [toList_instanceName, List.length_append]
  unfold namedArguments
  split
  · rename_i hZero
    exact absurd hZero hParams
  · cases hMem
  · rename_i first env _ _
    simp only [List.length_cons, List.length_append]
    rcases List.mem_cons.mp hMem with rfl | hMem
    · omega
    · have := length_le_afterArgument
        (List.mem_map_of_mem (f := fun s => (p.nameOf s).toList) hMem)
      omega

/-
  The name tells the descriptor's and, if it declares
  parameters, the names of the arguments.
-/
theorem instanceName_inj
    (hName : PlainName d.name)
    (hName' : PlainName d'.name)
    (hEnv : d.params ≠ 0 → ∀ s ∈ env, Closes 0 (p.nameOf s).toList)
    (hEnv' : d'.params ≠ 0 → ∀ s ∈ env', Closes 0 (p.nameOf s).toList)
    (h : p.instanceName d env = p.instanceName d' env') :
    d.name = d'.name ∧
    (d.params ≠ 0 → d'.params ≠ 0 →
      env.map p.nameOf = env'.map p.nameOf) := by
  rw [← String.toList_inj, toList_instanceName, toList_instanceName] at h
  rcases hName.cancel hName' (p.head_namedArguments d env)
      (p.head_namedArguments d' env') h with ⟨hSame, hArguments⟩
  refine ⟨hSame, fun hParams hParams' => ?_⟩
  have hAll := hEnv hParams
  have hAll' := hEnv' hParams'
  rcases Nat.exists_eq_succ_of_ne_zero hParams with ⟨n, hn⟩
  rcases Nat.exists_eq_succ_of_ne_zero hParams' with ⟨n', hn'⟩
  simp only [namedArguments, hn, hn'] at hArguments
  cases env with
  | nil =>
      cases env' with
      | nil => rfl
      | cons => cases hArguments
  | cons s env =>
      cases env' with
      | nil => cases hArguments
      | cons s' env' =>
          rcases List.forall_mem_cons.mp hAll with ⟨hFirst, hRest⟩
          rcases List.forall_mem_cons.mp hAll' with ⟨hFirst', hRest'⟩
          rcases hFirst.cancel hFirst' (endsArgument_afterArgument _)
              (endsArgument_afterArgument _)
              (List.tail_eq_of_cons_eq hArguments) with ⟨hNames, hAfter⟩
          have hOthers := afterArgument_inj
            (List.forall_mem_map.mpr hRest)
            (List.forall_mem_map.mpr hRest') hAfter
          rw [List.map_cons, List.map_cons, String.toList_inj.mp hNames]
          congr 1
          refine List.map_injective_iff.mpr
            (fun _ _ hEq => String.toList_inj.mp hEq) ?_
          rw [List.map_map, List.map_map]
          exact hOthers

end SchemaPool

end MatchCompiler
