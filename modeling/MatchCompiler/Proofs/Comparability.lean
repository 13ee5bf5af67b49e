import MatchCompiler.Proofs.SlotBounds

/-
  This file shows when it does not matter in which order
  types are compared.

  Comparing types goes from the type of a pattern to that of
  a scrutinee: a base goes together with what derives from it
  but not the other way round. Among types of which none
  derives from another, and whose components do not either,
  going together is symmetric and transitive. In a pool where
  no type has a base it is an equivalence, at any depth of
  nesting, and no comparison is left to a test at run time.

  Key definitions include:
    * `Compat.Agrees`
    * `SchemaKind.PartsAgree`
    * `SchemaPool.Component`
    * `SchemaPool.Derives`
    * `SchemaPool.Apart`

  Key theorems include:
    * `SchemaPool.Apart.agrees_iff`
    * `SchemaPool.Apart.agrees_symm`
    * `SchemaPool.Apart.agrees_trans`
    * `SchemaPool.compat_congr`
    * `SchemaPool.compat_equivalence_of_no_ancestors`
-/

------------------------------------------------------------
-- Verdicts That Agree
------------------------------------------------------------

namespace MatchCompiler

/- The types are the same, or of one numeric family. -/
def Compat.Agrees (c : Compat) : Prop :=
  c = .exact ∨ c = .numeric

namespace Compat

variable {c d : Compat}

theorem agrees_exact : Agrees .exact :=
  .inl rfl

/- What is compared on a condition only agrees if it holds. -/
theorem agrees_ite_iff
    {h : Prop}
    [Decidable h] :
    (if h then c else .incompatible).Agrees ↔ h ∧ c.Agrees := by
  by_cases hHolds : h
  · rw [if_pos hHolds, and_iff_right hHolds]
  · rw [if_neg hHolds]
    apply iff_of_false
    · simp [Agrees]
    · exact fun hBoth => hHolds hBoth.1

/- Parts agree if each of them does. -/
theorem agrees_both_iff :
    (c.both d).Agrees ↔ c.Agrees ∧ d.Agrees := by
  unfold Agrees
  cases c <;> cases d <;> decide

end Compat

/- Two optional slots are there and related. -/
def BothSlots
    (R : SchemaId → SchemaId → Prop)
    (x y : Option SchemaId) : Prop :=
  ∃ a ∈ x, ∃ b ∈ y, R a b

/-
  Two schemas of a kind have related parts. What is not
  compared by its parts has the same name.
-/
def SchemaKind.PartsAgree
    (R : SchemaId → SchemaId → Prop)
    (s u : Schema) : SchemaKind → Prop
| .primitive =>
    ∃ k ∈ s.primitive, ∃ l ∈ u.primitive, k.agrees l = true
| .sequence | .set | .optional => BothSlots R s.element u.element
| .array =>
    s.arrayLength = u.arrayLength ∧ BothSlots R s.element u.element
| .map => BothSlots R s.key u.key ∧ BothSlots R s.value u.value
| .tuple =>
    List.Forall₂ (fun f g => R f.schema g.schema) s.fields u.fields
| _ => s.name = u.name

namespace Schema

/- A slot that comparing a schema goes on to. -/
inductive Component
    (s : Schema) : SchemaId → Prop
| element
    {a : SchemaId}
    (hElement : s.element = some a) :
    Component s a
| key
    {a : SchemaId}
    (hKey : s.key = some a) :
    Component s a
| value
    {a : SchemaId}
    (hValue : s.value = some a) :
    Component s a
| field
    {f : Field}
    (hKind : s.kind = .tuple)
    (hField : f ∈ s.fields) :
    Component s f.schema

theorem Within.component
    {s : Schema}
    {bound : Nat}
    {slot : SchemaId}
    (h : s.Within bound)
    (hComponent : s.Component slot) :
    slot < bound := by
  cases hComponent with
  | element hElement => exact h.element slot hElement
  | key hKey => exact h.key slot hKey
  | value hValue => exact h.value slot hValue
  | field hKind hField => exact h.fields _ hField

end Schema

/- Families of numbers go together in a row. -/
theorem Primitive.agrees_trans
    {k l m : Primitive}
    (h : k.agrees l = true)
    (h' : l.agrees m = true) :
    k.agrees m = true := by
  unfold agrees at *
  cases hk : k.family <;> cases hl : l.family <;> cases hm : m.family <;>
    simp_all

/- Lists whose entries are related one by one, turned round. -/
theorem forall₂_turn
    {α β : Type}
    {R : α → β → Prop}
    {R' : β → α → Prop}
    {xs : List α}
    {ys : List β}
    (h : List.Forall₂ R xs ys)
    (hTurn : ∀ x ∈ xs, ∀ y ∈ ys, R x y → R' y x) :
    List.Forall₂ R' ys xs := by
  induction h with
  | nil => exact .nil
  | @cons x y xs ys hHead _ ih =>
      refine .cons ?_ (ih fun x hx y hy => ?_)
      · exact hTurn x List.mem_cons_self y List.mem_cons_self hHead
      · exact hTurn x (List.mem_cons_of_mem _ hx) y
          (List.mem_cons_of_mem _ hy)

/- Lists whose entries are related one by one, in a row. -/
theorem forall₂_row
    {α β γ : Type}
    {R : α → β → Prop}
    {R' : β → γ → Prop}
    {R'' : α → γ → Prop}
    {xs : List α}
    {ys : List β}
    {zs : List γ}
    (h : List.Forall₂ R xs ys)
    (h' : List.Forall₂ R' ys zs)
    (hRow :
      ∀ x ∈ xs, ∀ y ∈ ys, ∀ z ∈ zs, R x y → R' y z → R'' x z) :
    List.Forall₂ R'' xs zs := by
  induction h generalizing zs with
  | nil =>
      cases h'
      exact .nil
  | @cons x y xs ys hHead _ ih =>
      cases h' with
      | @cons _ z _ zs hHead' hTail' =>
          refine .cons ?_ (ih hTail' fun x hx y hy z hz => ?_)
          · exact hRow x List.mem_cons_self y List.mem_cons_self z
              List.mem_cons_self hHead hHead'
          · exact hRow x (List.mem_cons_of_mem _ hx) y
              (List.mem_cons_of_mem _ hy) z (List.mem_cons_of_mem _ hz)

namespace SchemaKind

variable {k : SchemaKind}
variable {s u w : Schema}
variable {R R' R'' : SchemaId → SchemaId → Prop}

/- Parts agree the other way round. -/
theorem PartsAgree.symm
    (h : k.PartsAgree R s u)
    (hs : s.kind = k)
    (hu : u.kind = k)
    (hTurn :
      ∀ a b, s.Component a → u.Component b → R a b → R' b a) :
    k.PartsAgree R' u s := by
  have hSlots :
      ∀ {x y : Option SchemaId},
        (∀ a ∈ x, s.Component a) → (∀ b ∈ y, u.Component b) →
        BothSlots R x y → BothSlots R' y x := by
    rintro x y hx hy ⟨a, ha, b, hb, hRel⟩
    exact ⟨b, hb, a, ha, hTurn a b (hx a ha) (hy b hb) hRel⟩
  have hElement := hSlots (fun _ => .element) (fun _ => .element)
  cases k with
  | primitive =>
      rcases h with ⟨k, hk, l, hl, hAgrees⟩
      exact ⟨l, hl, k, hk, k.agrees_comm l ▸ hAgrees⟩
  | sequence => exact hElement h
  | set => exact hElement h
  | optional => exact hElement h
  | array => exact ⟨h.1.symm, hElement h.2⟩
  | map =>
      have hKey := hSlots (fun _ => .key) (fun _ => .key)
      have hValue := hSlots (fun _ => .value) (fun _ => .value)
      exact ⟨hKey h.1, hValue h.2⟩
  | tuple =>
      exact forall₂_turn h fun f hf g hg =>
        hTurn _ _ (.field hs hf) (.field hu hg)
  | record => exact Eq.symm h
  | union => exact Eq.symm h
  | enumeration => exact Eq.symm h
  | reference => exact Eq.symm h
  | unknown => exact Eq.symm h

/- Parts agree in a row. -/
theorem PartsAgree.trans
    (h : k.PartsAgree R s u)
    (h' : k.PartsAgree R' u w)
    (hs : s.kind = k)
    (hu : u.kind = k)
    (hw : w.kind = k)
    (hRow :
      ∀ a b c, s.Component a → u.Component b → w.Component c →
        R a b → R' b c → R'' a c) :
    k.PartsAgree R'' s w := by
  have hSlots :
      ∀ {x y z : Option SchemaId},
        (∀ a ∈ x, s.Component a) → (∀ b ∈ y, u.Component b) →
        (∀ c ∈ z, w.Component c) →
        BothSlots R x y → BothSlots R' y z → BothSlots R'' x z := by
    rintro x y z hx hy hz ⟨a, ha, b, hb, hRel⟩ ⟨b', hb', c, hc, hRel'⟩
    cases Option.mem_unique hb hb'
    exact ⟨a, ha, c, hc,
      hRow a b c (hx a ha) (hy b hb) (hz c hc) hRel hRel'⟩
  have hElement :=
    hSlots (fun _ => .element) (fun _ => .element) (fun _ => .element)
  cases k with
  | primitive =>
      rcases h with ⟨k, hk, l, hl, hAgrees⟩
      rcases h' with ⟨l', hl', m, hm, hAgrees'⟩
      cases Option.mem_unique hl hl'
      exact ⟨k, hk, m, hm, Primitive.agrees_trans hAgrees hAgrees'⟩
  | sequence => exact hElement h h'
  | set => exact hElement h h'
  | optional => exact hElement h h'
  | array => exact ⟨h.1.trans h'.1, hElement h.2 h'.2⟩
  | map =>
      have hKey := hSlots (fun _ => .key) (fun _ => .key) (fun _ => .key)
      have hValue :=
        hSlots (fun _ => .value) (fun _ => .value) (fun _ => .value)
      exact ⟨hKey h.1 h'.1, hValue h.2 h'.2⟩
  | tuple =>
      exact forall₂_row h h' fun f hf g hg i hi =>
        hRow _ _ _ (.field hs hf) (.field hu hg) (.field hw hi)
  | record => exact Eq.trans h h'
  | union => exact Eq.trans h h'
  | enumeration => exact Eq.trans h h'
  | reference => exact Eq.trans h h'
  | unknown => exact Eq.trans h h'

end SchemaKind

namespace SchemaPool

variable {compare : SchemaId → SchemaId → Compat}

theorem agrees_compatPart_iff
    {x y : Option SchemaId} :
    (compatPart compare x y).Agrees ↔
      BothSlots (fun a b => (compare a b).Agrees) x y := by
  match x, y with
  | some a, some b => simp [compatPart, BothSlots]
  | some _, none => simp [compatPart, BothSlots, Compat.Agrees]
  | none, _ => simp [compatPart, BothSlots, Compat.Agrees]

theorem agrees_compatPrimitive_iff
    {x y : Option Primitive} :
    (compatPrimitive x y).Agrees ↔
      ∃ k ∈ x, ∃ l ∈ y, k.agrees l = true := by
  match x, y with
  | some k, some l =>
      by_cases hSame : k = l
      · simp [compatPrimitive, hSame, Compat.Agrees, l.agrees_self]
      · by_cases hAgrees : k.agrees l = true
        · simp [compatPrimitive, hSame, hAgrees, Compat.Agrees]
        · simp [compatPrimitive, hSame, hAgrees, Compat.Agrees]
  | some _, none => simp [compatPrimitive, Compat.Agrees]
  | none, _ => simp [compatPrimitive, Compat.Agrees]

/- Fields agree in turn. -/
theorem agrees_foldl_iff
    {fs gs : List Field}
    (hLength : fs.length = gs.length)
    (c : Compat) :
    ((fs.zip gs).foldl
      (fun c fg => c.both (compare fg.1.schema fg.2.schema)) c).Agrees ↔
      c.Agrees ∧
      List.Forall₂ (fun f g => (compare f.schema g.schema).Agrees)
        fs gs := by
  induction fs generalizing gs c with
  | nil =>
      cases gs with
      | nil => simp
      | cons g gs => cases hLength
  | cons f fs ih =>
      cases gs with
      | nil => cases hLength
      | cons g gs =>
          rw [List.zip_cons_cons, List.foldl_cons,
            ih (Nat.succ.inj hLength), Compat.agrees_both_iff,
            List.forall₂_cons, and_assoc]

end SchemaPool

end MatchCompiler

------------------------------------------------------------
-- Types Apart From Each Other
------------------------------------------------------------

namespace MatchCompiler

namespace SchemaPool

/- A slot that comparing another one goes on to. -/
def Component
    (p : SchemaPool)
    (a b : SchemaId) : Prop :=
  (p.get (p.unwrap a)).Component b

/- A slot that is a component at some depth, or the same. -/
def ComposedOf
    (p : SchemaPool) : SchemaId → SchemaId → Prop :=
  Relation.ReflTransGen p.Component

/- One of the bases of a type comes to what another comes to. -/
def Derives
    (p : SchemaPool)
    (a b : SchemaId) : Prop :=
  ∃ c ∈ (p.get (p.unwrap a)).ancestors, p.unwrap c = p.unwrap b

/- Slots with their components of which none derives from another. -/
structure Apart
    (p : SchemaPool)
    (S : SchemaId → Prop) : Prop where
  component : ∀ a b, S a → p.Component a b → S b
  not_derives : ∀ a b, S a → S b → ¬ p.Derives a b

variable {p : SchemaPool}
variable {S : SchemaId → Prop}
variable {a b c : SchemaId}

/- Types apart are compared by kind and name. -/
theorem Apart.compatNominal_eq
    (h : p.Apart S)
    (ha : S a)
    (hb : S b) :
    p.compatNominal (p.unwrap a) (p.unwrap b) =
      if (p.get (p.unwrap a)).kind = (p.get (p.unwrap b)).kind ∧
          (p.get (p.unwrap a)).name = (p.get (p.unwrap b)).name then
        .exact
      else
        .incompatible := by
  have hNone :
      ∀ {a b : SchemaId}, S a → S b →
        (p.get (p.unwrap a)).ancestors.any
          (fun x => p.unwrap x == p.unwrap b) = false := by
    intro a b ha hb
    rw [List.any_eq_false]
    intro x hx hSame
    exact h.not_derives a b ha hb ⟨x, hx, beq_iff_eq.mp hSame⟩
  simp [compatNominal, hNone hb ha, hNone ha hb]

/- They agree if they are of one kind and their parts agree. -/
theorem Apart.agrees_compatParts_iff
    (h : p.Apart S)
    {compare : SchemaId → SchemaId → Compat}
    (ha : S a)
    (hb : S b) :
    (p.compatParts compare (p.unwrap a) (p.unwrap b)).Agrees ↔
      (p.get (p.unwrap a)).kind = (p.get (p.unwrap b)).kind ∧
      (p.get (p.unwrap a)).kind.PartsAgree
        (fun x y => (compare x y).Agrees)
        (p.get (p.unwrap a)) (p.get (p.unwrap b)) := by
  have hNominal := h.compatNominal_eq ha hb
  generalize p.unwrap a = u at *
  generalize p.unwrap b = v at *
  by_cases hKind : (p.get u).kind = (p.get v).kind
  · have hByName :
        (p.compatNominal u v).Agrees ↔ (p.get u).name = (p.get v).name := by
      rw [hNominal, Compat.agrees_ite_iff,
        and_iff_left Compat.agrees_exact]
      exact and_iff_right hKind
    have hElement :
        (Compat.exact.both
          (compatPart compare (p.get u).element (p.get v).element)).Agrees ↔
        BothSlots (fun x y => (compare x y).Agrees) (p.get u).element
          (p.get v).element := by
      rw [Compat.agrees_both_iff, agrees_compatPart_iff]
      exact and_iff_right Compat.agrees_exact
    rw [and_iff_right hKind]
    unfold compatParts
    dsimp only
    rw [← hKind]
    cases (p.get u).kind with
    | primitive => exact agrees_compatPrimitive_iff
    | sequence => exact hElement
    | set => exact hElement
    | optional => exact hElement
    | map =>
        exact Compat.agrees_both_iff.trans
          (and_congr agrees_compatPart_iff agrees_compatPart_iff)
    | array =>
        exact Compat.agrees_ite_iff.trans (and_congr beq_iff_eq hElement)
    | tuple =>
        by_cases hLength :
            (p.get u).fields.length = (p.get v).fields.length
        · rw [Compat.agrees_ite_iff,
            and_iff_right (beq_iff_eq.mpr hLength),
            agrees_foldl_iff hLength]
          exact and_iff_right Compat.agrees_exact
        · rw [Compat.agrees_ite_iff]
          apply iff_of_false
          · exact fun hSame => hLength (beq_iff_eq.mp hSame.1)
          · exact fun hFields => hLength hFields.length_eq
    | record => exact hByName
    | union => exact hByName
    | enumeration => exact hByName
    | reference => exact hByName
    | unknown => exact hByName
  · refine iff_of_false ?_ fun hSame => hKind hSame.1
    have hNone : ¬ (p.compatNominal u v).Agrees := by
      rw [hNominal, Compat.agrees_ite_iff]
      exact fun hSame => hKind hSame.1.1
    unfold compatParts
    dsimp only
    split <;> rename_i hFirst hSecond
    all_goals
      first
        | exact hNone
        | exact absurd (hFirst.trans hSecond.symm) hKind

/-
  Slots apart agree if they come to the same one, or to slots
  of one kind whose parts agree at the next depth.
-/
theorem Apart.agrees_iff
    (h : p.Apart S)
    (n : Nat)
    (ha : S a)
    (hb : S b) :
    (p.compatWithin (n + 1) a b).Agrees ↔
      p.unwrap a = p.unwrap b ∨
      (p.get (p.unwrap a)).kind = (p.get (p.unwrap b)).kind ∧
      (p.get (p.unwrap a)).kind.PartsAgree
        (fun x y => (p.compatWithin n x y).Agrees)
        (p.get (p.unwrap a)) (p.get (p.unwrap b)) := by
  have hStep :
      p.compatWithin (n + 1) a b =
        if p.unwrap a == p.unwrap b then
          .exact
        else
          p.compatParts (p.compatWithin n) (p.unwrap a) (p.unwrap b) :=
    rfl
  rw [hStep]
  by_cases hSame : p.unwrap a = p.unwrap b
  · rw [if_pos (beq_iff_eq.mpr hSame)]
    exact iff_of_true Compat.agrees_exact (.inl hSame)
  · rw [if_neg fun hEq => hSame (beq_iff_eq.mp hEq),
      h.agrees_compatParts_iff ha hb, or_iff_right hSame]

/- Among types apart it does not matter which comes first. -/
theorem Apart.agrees_symm
    (h : p.Apart S)
    (n : Nat)
    (ha : S a)
    (hb : S b)
    (hAgrees : (p.compatWithin n a b).Agrees) :
    (p.compatWithin n b a).Agrees := by
  induction n generalizing a b with
  | zero => exact hAgrees
  | succ n ih =>
      rw [h.agrees_iff n hb ha]
      rcases (h.agrees_iff n ha hb).mp hAgrees with
        hSame | ⟨hKind, hParts⟩
      · exact .inl hSame.symm
      · refine .inr ⟨hKind.symm, ?_⟩
        rw [← hKind]
        apply hParts.symm rfl hKind.symm
        intro x y hx hy
        exact ih (h.component a x ha hx) (h.component b y hb hy)

/- Two types that agree with a third one agree. -/
theorem Apart.agrees_trans
    (h : p.Apart S)
    (n : Nat)
    (ha : S a)
    (hb : S b)
    (hc : S c)
    (hFirst : (p.compatWithin n a b).Agrees)
    (hSecond : (p.compatWithin n b c).Agrees) :
    (p.compatWithin n a c).Agrees := by
  induction n generalizing a b c with
  | zero => exact hFirst
  | succ n ih =>
      rw [h.agrees_iff n ha hc]
      rcases (h.agrees_iff n ha hb).mp hFirst with
        hSame | ⟨hKind, hParts⟩
      · rw [hSame]
        exact (h.agrees_iff n hb hc).mp hSecond
      · rcases (h.agrees_iff n hb hc).mp hSecond with
          hSame | ⟨hKind', hParts'⟩
        · rw [← hSame]
          exact .inr ⟨hKind, hParts⟩
        · rw [← hKind] at hParts'
          refine .inr ⟨hKind.trans hKind', ?_⟩
          apply hParts.trans hParts' rfl hKind.symm
            (hKind.trans hKind').symm
          intro x y z hx hy hz
          exact ih (h.component a x ha hx) (h.component b y hb hy)
            (h.component c z hc hz)

end SchemaPool

end MatchCompiler

------------------------------------------------------------
-- Types Without Bases
------------------------------------------------------------

namespace MatchCompiler

namespace SchemaPool

variable {p : SchemaPool}
variable {a a' b b' : SchemaId}

/- Types are compared by what they unwrap to. -/
theorem compat_congr
    (hFirst : p.unwrap a = p.unwrap a')
    (hSecond : p.unwrap b = p.unwrap b') :
    p.compat a b = p.compat a' b' := by
  unfold compat compatDepth
  simp only [compatWithin, hFirst, hSecond]

/- A type is comparable with itself. -/
theorem compat_self
    (p : SchemaPool)
    (a : SchemaId) :
    p.compat a a = .exact := by
  unfold compat compatDepth compatWithin
  exact if_pos (beq_self_eq_true (p.unwrap a))

/- Fields in turn are never left to a test at run time. -/
theorem foldl_both_ne_deferred
    {α : Type}
    (compare : α → Compat)
    (fs : List α)
    {c : Compat}
    (h : c ≠ .deferred) :
    fs.foldl (fun c f => c.both (compare f)) c ≠ .deferred := by
  induction fs generalizing c with
  | nil => exact h
  | cons f fs ih => exact ih (Compat.both_ne_deferred c (compare f))

/- Types apart are never left to a test at run time. -/
theorem Apart.compatWithin_ne_deferred
    {S : SchemaId → Prop}
    (h : p.Apart S)
    (n : Nat)
    (ha : S a)
    (hb : S b) :
    p.compatWithin n a b ≠ .deferred := by
  cases n with
  | zero =>
      change Compat.incompatible ≠ .deferred
      decide
  | succ n =>
      have hNominal :
          p.compatNominal (p.unwrap a) (p.unwrap b) ≠ .deferred := by
        rw [h.compatNominal_eq ha hb]
        split <;> decide
      unfold compatWithin
      dsimp only
      split
      · decide
      · unfold compatParts
        dsimp only
        split
        · unfold compatPrimitive
          split
          · split
            · decide
            · split <;> decide
          · decide
        · exact Compat.both_ne_deferred _ _
        · exact Compat.both_ne_deferred _ _
        · exact Compat.both_ne_deferred _ _
        · split
          · exact Compat.both_ne_deferred _ _
          · decide
        · exact Compat.both_ne_deferred _ _
        · split
          · exact foldl_both_ne_deferred _ _ (by decide)
          · decide
        · exact hNominal

/- Types of which none has a base are apart. -/
theorem apart_of_no_ancestors
    (h : ∀ slot, (p.get slot).ancestors = []) :
    p.Apart fun _ => True := by
  refine ⟨fun _ _ _ _ => trivial, ?_⟩
  rintro a b - - ⟨c, hc, -⟩
  rw [h] at hc
  cases hc

/-
  If no type has a base, then going together is an
  equivalence of types, however deep or endless containers
  are nested. No comparison is left to a test at run time,
  and types are compared by what they unwrap to.
-/
theorem compat_equivalence_of_no_ancestors
    (h : ∀ slot, (p.get slot).ancestors = []) :
    Equivalence (fun a b => (p.compat a b).Agrees) ∧
    (∀ a b, p.compat a b ≠ .deferred) ∧
    (∀ a a' b b', p.unwrap a = p.unwrap a' → p.unwrap b = p.unwrap b' →
      p.compat a b = p.compat a' b') := by
  have hApart := apart_of_no_ancestors h
  refine ⟨⟨fun a => ?_, fun hAgrees => ?_, fun hFirst hSecond => ?_⟩,
    fun a b => ?_, fun _ _ _ _ => compat_congr⟩
  · rw [compat_self]
    exact Compat.agrees_exact
  · exact hApart.agrees_symm compatDepth trivial trivial hAgrees
  · exact hApart.agrees_trans compatDepth trivial trivial trivial hFirst
      hSecond
  · exact hApart.compatWithin_ne_deferred compatDepth trivial trivial

/-
  Two endless nestings of sequences, an alias of the second,
  and the sets of two integer types.
-/
def endlessSequences : SchemaPool :=
  { schemas :=
      #[{ kind := .sequence, name := "A", element := some 0 },
        { kind := .sequence, name := "B", element := some 1 },
        { kind := .sequence, name := "B", aliasName := some "C",
          flags := { aliased := true }, element := some 1,
          target := some 1 },
        Schema.ofPrimitive .i8 "i8",
        Schema.ofPrimitive .i64 "i64",
        { kind := .set, name := "set[i8]", element := some 3 },
        { kind := .set, name := "set[i64]", element := some 4 }] }

/-
  The nestings are cut off and do not go together, an alias
  goes together with what its target does, and the sets go
  together in both orders.
-/
theorem endlessSequences_compared :
    (∀ slot, (endlessSequences.get slot).ancestors = []) ∧
    endlessSequences.compat 0 1 = .incompatible ∧
    endlessSequences.compat 0 2 = endlessSequences.compat 0 1 ∧
    endlessSequences.compat 5 6 = .numeric ∧
    (endlessSequences.compat 6 5).Agrees := by
  have hNone : ∀ slot, (endlessSequences.get slot).ancestors = [] := by
    intro slot
    by_cases hLt : slot < endlessSequences.size
    · have hAll : ∀ slot < 7, (endlessSequences.get slot).ancestors = [] := by
        decide
      exact hAll slot hLt
    · rw [get_of_le (Nat.le_of_not_lt hLt)]
      rfl
  rcases compat_equivalence_of_no_ancestors hNone with
    ⟨hEquivalence, -, hUnwrap⟩
  have hSets : endlessSequences.compat 5 6 = .numeric := by decide
  exact ⟨hNone, by decide +kernel, hUnwrap 0 0 2 1 rfl (by decide), hSets,
    hEquivalence.symm (.inr hSets)⟩

end SchemaPool

end MatchCompiler
