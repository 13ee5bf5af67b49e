import MatchCompiler.Coverage
import MatchCompiler.Pattern.Check
import MatchCompiler.Proofs.Closedness

/-
  This file looks up slots by runs that stop where there is
  no slot.

  A slot that a pool does not have reads as an unknown type,
  so that a wrong look-up could go unnoticed. The runs below
  do what unwrapping, comparison, names, literals and
  coverage do, one look-up after the other, but have no
  result if one of these looks past the end of the pool. In
  a closed pool, started at slots of it, all of them have
  the result that they should have.

  Key definitions include:
    * `Trial.Fault`
    * `Trial.Yields`
    * `SchemaPool.look`
    * `SchemaPool.unwrap?`
    * `SchemaPool.compat?`
    * `SchemaPool.names?`
    * `SchemaPool.checkLiteral?`
    * `SchemaPool.coverage?`

  Key theorems include:
    * `SchemaPool.Closed.unwrap?_eq`
    * `SchemaPool.Closed.compat?_eq`
    * `SchemaPool.Closed.names?_eq`
    * `SchemaPool.Closed.conflict?_eq`
-/

------------------------------------------------------------
-- Trials
------------------------------------------------------------

namespace MatchCompiler

/-
  Why a run has no result: it looks up a slot that is not
  there, or extracts a descriptor whose parts are nested too
  deep.
-/
inductive Trial.Fault where
| noSlot (slot : SchemaId)
| endless (id : DescriptorId)
deriving DecidableEq

/- Runs that stop at a fault. -/
abbrev Trial :=
  Except Trial.Fault

namespace Trial

variable {α β : Type}

/-
  A run has a result, unless an extraction does not end, and
  only where there are extractions that stall.
-/
def Yields
    (t : Trial α)
    (stalls : Prop)
    (a : α) : Prop :=
  t = .ok a ∨ stalls ∧ ∃ id, t = .error (.endless id)

/- A run that goes on from a result has the next one. -/
theorem Yields.bind
    {t : Trial α}
    {stalls stalls' : Prop}
    {a : α}
    {f : α → Trial β}
    {b : β}
    (h : t.Yields stalls a)
    (hNext : (f a).Yields stalls' b)
    (hStalls : stalls' → stalls) :
    (t >>= f).Yields stalls b := by
  rcases h with rfl | ⟨hHere, id, rfl⟩
  · exact hNext.imp_right fun h => ⟨hStalls h.1, h.2⟩
  · exact .inr ⟨hHere, id, rfl⟩

/- What is made of a result is the result of a longer run. -/
theorem Yields.map
    {t : Trial α}
    {stalls : Prop}
    {a : α}
    (h : t.Yields stalls a)
    (f : α → β) :
    (t >>= fun a => pure (f a)).Yields stalls (f a) :=
  h.bind (.inl rfl) fun hStalls => hStalls

variable {l : List α}

/- A test of every element of a list is tried in turn. -/
theorem anyM_eq_any
    {f : α → Trial Bool}
    {g : α → Bool}
    (h : ∀ a ∈ l, f a = pure (g a)) :
    l.anyM f = pure (l.any g) := by
  induction l with
  | nil => rfl
  | cons a l ih =>
      rcases List.forall_mem_cons.mp h with ⟨hHead, hTail⟩
      simp only [List.anyM, hHead, pure_bind, ih hTail, List.any_cons]
      cases g a <;> rfl

/- What each step keeps holds of the state of a fold. -/
theorem foldlM_eq_foldl
    {f : β → α → Trial β}
    {g : β → α → β}
    {P : β → Prop}
    (h : ∀ b, P b → ∀ a ∈ l, f b a = pure (g b a) ∧ P (g b a))
    {b : β}
    (hb : P b) :
    l.foldlM f b = pure (l.foldl g b) := by
  induction l generalizing b with
  | nil => rfl
  | cons a l ih =>
      rcases h b hb a List.mem_cons_self with ⟨hHead, hNext⟩
      rw [List.foldlM_cons, List.foldl_cons, hHead, pure_bind]
      exact ih (fun b hb a ha => h b hb a (List.mem_cons_of_mem _ ha))
        hNext

theorem mapM_eq_map
    {f : α → Trial β}
    {g : α → β}
    (h : ∀ a ∈ l, f a = pure (g a)) :
    l.mapM f = pure (l.map g) := by
  induction l with
  | nil => rfl
  | cons a l ih =>
      rcases List.forall_mem_cons.mp h with ⟨hHead, hTail⟩
      rw [List.mapM_cons, hHead, pure_bind, ih hTail, pure_bind,
        List.map_cons]

theorem findSomeM?_eq_findSome?
    {f : α → Trial (Option β)}
    {g : α → Option β}
    (h : ∀ a ∈ l, f a = pure (g a)) :
    l.findSomeM? f = pure (l.findSome? g) := by
  induction l with
  | nil => rfl
  | cons a l ih =>
      rcases List.forall_mem_cons.mp h with ⟨hHead, hTail⟩
      simp only [List.findSomeM?, hHead, pure_bind, ih hTail,
        List.findSome?_cons]
      cases g a <;> rfl

end Trial

end MatchCompiler

------------------------------------------------------------
-- Runs On A Pool
------------------------------------------------------------

namespace MatchCompiler

namespace SchemaPool

/- The schema in a slot, which has to be there. -/
def look
    (p : SchemaPool)
    (id : SchemaId) : Trial Schema :=
  match p.get? id with
  | some s => .ok s
  | none => .error (.noSlot id)

/- The name shown for the schema in a slot. -/
def nameOf?
    (p : SchemaPool)
    (id : SchemaId) : Trial String :=
  return (← p.look id).displayName

/- Follow targets, as `follow` does. -/
def follow?
    (p : SchemaPool)
    (through : Schema → Bool) :
    Nat → SchemaId → Trial SchemaId
| 0, id => return id
| n + 1, id => do
    let s ← p.look id
    match s.target with
    | none => return id
    | some target =>
        if through s && target != id then
          follow? p through n target
        else
          return id

/- The schema that an alias finally stands for. -/
def canonical?
    (p : SchemaPool)
    (id : SchemaId) : Trial SchemaId :=
  p.follow? (fun s => s.aliasName.isSome) p.size id

/- Follow references, and the aliases between them. -/
def followReferences?
    (p : SchemaPool) :
    Nat → SchemaId → Trial SchemaId
| 0, id => return id
| n + 1, id => do
    let s ← p.look id
    match s.target with
    | none => return id
    | some target =>
        if s.isReference && target != id then
          followReferences? p n (← p.canonical? target)
        else
          return id

/- What a chain of aliases and references leads to. -/
def unwrap?
    (p : SchemaPool)
    (id : SchemaId) : Trial SchemaId := do
  p.followReferences? p.size (← p.canonical? id)

/- Two types that are not compared by their parts. -/
def compatNominal?
    (p : SchemaPool)
    (pattern scrutinee : SchemaId) : Trial Compat := do
  let ps ← p.look pattern
  let ss ← p.look scrutinee
  if ps.kind == ss.kind && ps.name == ss.name then
    return .exact
  if ← ss.ancestors.anyM (fun a => return (← p.unwrap? a) == pattern) then
    return .exact
  let derived ←
    ps.ancestors.anyM (fun a => return (← p.unwrap? a) == scrutinee)
  return if ss.isExtensible && derived then .deferred else .incompatible

/- Two optional parts, compared if both are present. -/
def compatPart?
    (compare : SchemaId → SchemaId → Trial Compat) :
    Option SchemaId → Option SchemaId → Trial Compat
| some a, some b => compare a b
| _, _ => return .incompatible

/- Two schemas that have been unwrapped and differ. -/
def compatParts?
    (p : SchemaPool)
    (compare : SchemaId → SchemaId → Trial Compat)
    (pattern scrutinee : SchemaId) : Trial Compat := do
  let ps ← p.look pattern
  let ss ← p.look scrutinee
  match ps.kind, ss.kind with
  | .primitive, .primitive =>
      return compatPrimitive ps.primitive ss.primitive
  | .sequence, .sequence | .set, .set | .optional, .optional =>
      return Compat.exact.both (← compatPart? compare ps.element ss.element)
  | .array, .array =>
      if ps.arrayLength == ss.arrayLength then
        return Compat.exact.both
          (← compatPart? compare ps.element ss.element)
      else
        return .incompatible
  | .map, .map =>
      let key ← compatPart? compare ps.key ss.key
      return key.both (← compatPart? compare ps.value ss.value)
  | .tuple, .tuple =>
      if ps.fields.length == ss.fields.length then
        (ps.fields.zip ss.fields).foldlM
          (fun c fg => return c.both (← compare fg.1.schema fg.2.schema))
          .exact
      else
        return .incompatible
  | _, _ => p.compatNominal? pattern scrutinee

/- Two schemas, through a number of nested containers. -/
def compatWithin?
    (p : SchemaPool) :
    Nat → SchemaId → SchemaId → Trial Compat
| 0, _, _ => return .incompatible
| n + 1, pattern, scrutinee => do
    let a ← p.unwrap? pattern
    let b ← p.unwrap? scrutinee
    if a == b then
      return .exact
    else
      p.compatParts? (compatWithin? p n) a b

/- Whether a value of a type may match a pattern of another. -/
def compat?
    (p : SchemaPool)
    (pattern scrutinee : SchemaId) : Trial Compat :=
  p.compatWithin? compatDepth pattern scrutinee

/- Whether a name stands for a type. -/
def names?
    (p : SchemaPool)
    (id : SchemaId)
    (head : String) : Trial Bool := do
  let pointee ← p.unwrap? id
  let canonical ← p.canonical? id
  let own ← [id, canonical, pointee].anyM fun i => do
    let s ← p.look i
    return s.name == head || s.aliasName == some head
  let s ← p.look pointee
  let inherited ←
    s.ancestors.anyM (fun a => return (← p.nameOf? a) == head)
  return own || inherited

/- The names that could have been meant for a type. -/
def headCandidates?
    (p : SchemaPool)
    (id : SchemaId) : Trial (List String) := do
  let s ← p.look id
  let pointee ← p.look (← p.unwrap? id)
  let cases :=
    if s.structuralKind == .union then
      s.branches.map Branch.label
    else
      []
  return ([s.name] ++ s.aliasName.toList ++ [pointee.name] ++
    cases).eraseReps

/- The first binding at a type that does not go together. -/
def conflict?
    (p : SchemaPool)
    (first bound : List Binding) : Trial (Option Problem) :=
  bound.findSomeM? fun b => do
    match first.find? (fun r => r.name == b.name) with
    | none => return none
    | some r =>
        match ← p.compat? b.schema r.schema with
        | .exact | .numeric => return none
        | _ =>
            let type ← p.nameOf? b.schema
            let other ← p.nameOf? r.schema
            return some
              (.alternativeTypes b.span r.span b.name type other)

/- What a literal means at the type in a slot. -/
def checkLiteral?
    (p : SchemaPool)
    (marker : Char)
    (id : SchemaId)
    (l : Literal) :
    Trial (Except LiteralProblem CheckedLiteral) :=
  return (← p.look id).checkLiteral marker l

/- The numbered values of the element type in a slot. -/
def ordinalDomain?
    (p : SchemaPool)
    (id : SchemaId) : Trial (Option Nat) :=
  return (← p.look id).ordinalDomain

/- Coverage of the scrutinee in a slot. -/
def coverage?
    (p : SchemaPool)
    (scrutinee : SchemaId)
    (arms : List CheckedArm)
    (span : Span) : Trial Coverage :=
  return (← p.look scrutinee).coverage arms span

end SchemaPool

end MatchCompiler

------------------------------------------------------------
-- Slots Of A Closed Pool
------------------------------------------------------------

namespace MatchCompiler

namespace SchemaPool

variable {p : SchemaPool}
variable {slot a b : SchemaId}

/- Looking up a slot of the pool has a result. -/
theorem look_eq
    (hSlot : slot < p.size) :
    p.look slot = pure (p.get slot) := by
  have hSome : p.get? slot = some (p.get slot) := by
    unfold get get?
    rw [Array.getElem?_eq_getElem hSlot]
    rfl
  unfold look
  rw [hSome]
  rfl

theorem nameOf?_eq
    (hSlot : slot < p.size) :
    p.nameOf? slot = pure (p.nameOf slot) := by
  simp only [nameOf?, nameOf, look_eq hSlot, pure_bind]

theorem checkLiteral?_eq
    (hSlot : slot < p.size)
    (marker : Char)
    (l : Literal) :
    p.checkLiteral? marker slot l =
      pure (p.checkLiteral marker slot l) := by
  simp only [checkLiteral?, checkLiteral, look_eq hSlot, pure_bind]

theorem ordinalDomain?_eq
    (hSlot : slot < p.size) :
    p.ordinalDomain? slot = pure (p.ordinalDomain slot) := by
  simp only [ordinalDomain?, ordinalDomain, look_eq hSlot, pure_bind]

theorem coverage?_eq
    (hSlot : slot < p.size)
    (arms : List CheckedArm)
    (span : Span) :
    p.coverage? slot arms span = pure (p.coverage slot arms span) := by
  simp only [coverage?, coverage, look_eq hSlot, pure_bind]

namespace Closed

variable (h : p.Closed)

include h

theorem follow?_eq
    (through : Schema → Bool)
    (n : Nat)
    (hSlot : slot < p.size) :
    p.follow? through n slot = pure (p.follow through n slot) := by
  induction n generalizing slot with
  | zero => rfl
  | succ n ih =>
      simp only [follow?, follow, look_eq hSlot, pure_bind]
      cases hTarget : (p.get slot).target with
      | none => rfl
      | some target =>
          dsimp only
          split
          · exact ih ((h.slots slot).target target hTarget)
          · rfl

theorem canonical?_eq
    (hSlot : slot < p.size) :
    p.canonical? slot = pure (p.canonical slot) :=
  h.follow?_eq _ _ hSlot

theorem canonical_lt
    (hSlot : slot < p.size) :
    p.canonical slot < p.size :=
  h.follow_lt hSlot _ _

theorem followReferences?_eq
    (n : Nat)
    (hSlot : slot < p.size) :
    p.followReferences? n slot = pure (p.followReferences n slot) := by
  induction n generalizing slot with
  | zero => rfl
  | succ n ih =>
      simp only [followReferences?, followReferences, look_eq hSlot,
        pure_bind]
      cases hTarget : (p.get slot).target with
      | none => rfl
      | some target =>
          have hLt := (h.slots slot).target target hTarget
          dsimp only
          split
          · rw [h.canonical?_eq hLt, pure_bind]
            exact ih (h.canonical_lt hLt)
          · rfl

/- No look-up fails on the way along aliases and references. -/
theorem unwrap?_eq
    (hSlot : slot < p.size) :
    p.unwrap? slot = pure (p.unwrap slot) := by
  simp only [unwrap?, unwrap, h.canonical?_eq hSlot, pure_bind]
  exact h.followReferences?_eq _ (h.canonical_lt hSlot)

/- Looking for a type among the ancestors of another. -/
theorem anyM_unwrap?_eq
    {slots : List SchemaId}
    (hSlots : ∀ s ∈ slots, s < p.size)
    (id : SchemaId) :
    slots.anyM (fun s => do return (← p.unwrap? s) == id) =
      pure (slots.any fun s => p.unwrap s == id) := by
  refine Trial.anyM_eq_any fun s hs => ?_
  rw [h.unwrap?_eq (hSlots s hs), pure_bind]

theorem compatNominal?_eq
    (ha : a < p.size)
    (hb : b < p.size) :
    p.compatNominal? a b = pure (p.compatNominal a b) := by
  simp only [compatNominal?, compatNominal, look_eq ha, look_eq hb,
    pure_bind, h.anyM_unwrap?_eq (h.slots a).ancestors,
    h.anyM_unwrap?_eq (h.slots b).ancestors]
  split
  · rfl
  · split
    · rfl
    · split <;> rfl

section Parts

variable {compare? : SchemaId → SchemaId → Trial Compat}
variable {compare : SchemaId → SchemaId → Compat}
variable (hCompare : ∀ a < p.size, ∀ b < p.size,
  compare? a b = pure (compare a b))

omit h in
include hCompare in
theorem compatPart?_eq
    {x y : Option SchemaId}
    (hx : ∀ a ∈ x, a < p.size)
    (hy : ∀ b ∈ y, b < p.size) :
    compatPart? compare? x y = pure (compatPart compare x y) := by
  match x, y with
  | some a, some b => exact hCompare a (hx a rfl) b (hy b rfl)
  | some _, none => rfl
  | none, _ => rfl

include hCompare in
/- The parts of slots are slots. -/
theorem compatParts?_eq
    (ha : a < p.size)
    (hb : b < p.size) :
    p.compatParts? compare? a b = pure (p.compatParts compare a b) := by
  have hs := h.slots a
  have ht := h.slots b
  have hElement := compatPart?_eq hCompare hs.element ht.element
  have hKey := compatPart?_eq hCompare hs.key ht.key
  have hValue := compatPart?_eq hCompare hs.value ht.value
  have hFields :
      ((p.get a).fields.zip (p.get b).fields).foldlM
          (fun c fg => do
            return c.both (← compare? fg.1.schema fg.2.schema))
          Compat.exact =
        pure (((p.get a).fields.zip (p.get b).fields).foldl
          (fun c fg => c.both (compare fg.1.schema fg.2.schema))
          .exact) := by
    refine Trial.foldlM_eq_foldl (P := fun _ => True)
      (fun c _ fg hMem => ⟨?_, trivial⟩) trivial
    rcases List.of_mem_zip hMem with ⟨hf, hg⟩
    rw [hCompare _ (hs.fields _ hf) _ (ht.fields _ hg), pure_bind]
  simp only [compatParts?, compatParts, look_eq ha, look_eq hb, pure_bind,
    hElement, hKey, hValue, hFields, h.compatNominal?_eq ha hb]
  generalize (p.get a).kind = k
  generalize (p.get b).kind = l
  -- Arrays and tuples compare their lengths before their parts.
  cases k <;> cases l <;> first | rfl | (dsimp only; split <;> rfl)

end Parts

theorem compatWithin?_eq
    (n : Nat)
    (ha : a < p.size)
    (hb : b < p.size) :
    p.compatWithin? n a b = pure (p.compatWithin n a b) := by
  induction n generalizing a b with
  | zero => rfl
  | succ n ih =>
      simp only [compatWithin?, compatWithin, h.unwrap?_eq ha,
        h.unwrap?_eq hb, pure_bind]
      split
      · rfl
      · exact h.compatParts?_eq (fun a ha b hb => ih ha hb)
          (h.unwrap_lt ha) (h.unwrap_lt hb)

/- No look-up fails when types are compared. -/
theorem compat?_eq
    (ha : a < p.size)
    (hb : b < p.size) :
    p.compat? a b = pure (p.compat a b) :=
  h.compatWithin?_eq _ ha hb

theorem names?_eq
    (hSlot : slot < p.size)
    (head : String) :
    p.names? slot head = pure (p.names slot head) := by
  have hUnwrap := h.unwrap_lt hSlot
  have hOwn :
      ∀ i ∈ [slot, p.canonical slot, p.unwrap slot], i < p.size := by
    simp [hSlot, hUnwrap, h.canonical_lt hSlot]
  have hAny :
      [slot, p.canonical slot, p.unwrap slot].anyM
          (fun i => do
            let s ← p.look i
            return s.name == head || s.aliasName == some head) =
        pure ([slot, p.canonical slot, p.unwrap slot].any fun i =>
          (p.get i).name == head || (p.get i).aliasName == some head) := by
    refine Trial.anyM_eq_any fun i hi => ?_
    rw [look_eq (hOwn i hi), pure_bind]
  have hBases :
      (p.get (p.unwrap slot)).ancestors.anyM
          (fun a => do return (← p.nameOf? a) == head) =
        pure ((p.get (p.unwrap slot)).ancestors.any fun a =>
          p.nameOf a == head) := by
    refine Trial.anyM_eq_any fun a ha => ?_
    rw [nameOf?_eq ((h.slots _).ancestors a ha), pure_bind]
  simp only [names?, names, h.unwrap?_eq hSlot, h.canonical?_eq hSlot,
    pure_bind, hAny, look_eq hUnwrap, hBases]

theorem headCandidates?_eq
    (hSlot : slot < p.size) :
    p.headCandidates? slot = pure (p.headCandidates slot) := by
  simp only [headCandidates?, headCandidates, look_eq hSlot,
    h.unwrap?_eq hSlot, pure_bind, look_eq (h.unwrap_lt hSlot)]

/- The names of alternatives are compared at slots. -/
theorem conflict?_eq
    {first bound : List Binding}
    (hFirst : ∀ b ∈ first, b.schema < p.size)
    (hBound : ∀ b ∈ bound, b.schema < p.size) :
    p.conflict? first bound =
      pure (Check.typeConflict? p first bound) := by
  refine Trial.findSomeM?_eq_findSome? fun b hb => ?_
  cases hFind : first.find? (fun r => r.name == b.name) with
  | none => rfl
  | some r =>
      have hr := hFirst r (List.mem_of_find?_eq_some hFind)
      simp only [h.compat?_eq (hBound b hb) hr, pure_bind,
        nameOf?_eq (hBound b hb), nameOf?_eq hr, Option.bind_eq_bind,
        Option.bind_some]
      cases p.compat b.schema r.schema <;> rfl

end Closed

end SchemaPool

end MatchCompiler
