import MatchCompiler.Proofs.Plan
import MatchCompiler.Proofs.SlotBounds
import Mathlib.Data.Prod.Basic

/-
  This file compares two pools that hold the same schemas,
  perhaps in different slots.

  Some slots of one pool have twins in the other. Twins hold
  the same schema, whatever that mentions is its own twin,
  and aliases and references lead from twins to twins. Then
  it does not matter for a comparison of types, or for what
  a literal means, in which of the two pools it is made.

  Key definitions include:
    * `Twins`
    * `SchemaPool.Paired`
    * `Checked.bare`

  Key theorems include:
    * `SchemaPool.Paired.compat_eq`
    * `SchemaPool.Paired.names_eq`
    * `Checked.labels_bare`
-/

------------------------------------------------------------
-- Twins
------------------------------------------------------------

namespace MatchCompiler

/-
  Slots of one pool with their twins in another. Below a
  bound, every slot is its own twin.
-/
structure Twins where
  Rel : SchemaId → SchemaId → Prop
  old : Nat
  own : ∀ slot < old, Rel slot slot

namespace Twins

/- All twins stay twins, and no fewer slots are their own. -/
structure Grows
    (T T' : Twins) : Prop where
  rel : ∀ a b, T.Rel a b → T'.Rel a b
  old_le : T.old ≤ T'.old

variable {T T' T'' : Twins}

theorem Grows.refl : T.Grows T :=
  ⟨fun _ _ h => h, Nat.le_refl _⟩

theorem Grows.trans
    (h : T.Grows T')
    (h' : T'.Grows T'') :
    T.Grows T'' :=
  ⟨fun a b hRel => h'.rel a b (h.rel a b hRel),
    h.old_le.trans h'.old_le⟩

end Twins

namespace SchemaPool

/-
  Twins hold the same schema, which mentions old slots only.
  They lead to twins, and no slot has two twins.
-/
structure Paired
    (T : Twins)
    (p p' : SchemaPool) : Prop where
  get_eq : ∀ a b, T.Rel a b → p'.get b = p.get a
  within : ∀ a b, T.Rel a b → (p.get a).Within T.old
  canonical :
    ∀ a b, T.Rel a b → T.Rel (p.canonical a) (p'.canonical b)
  unwrap : ∀ a b, T.Rel a b → T.Rel (p.unwrap a) (p'.unwrap b)
  same_iff : ∀ a b c d, T.Rel a b → T.Rel c d → (a = c ↔ b = d)

end SchemaPool

end MatchCompiler

------------------------------------------------------------
-- Comparison Of Twins
------------------------------------------------------------

namespace MatchCompiler

/- A test that agrees on the entries of a list does so on some. -/
theorem any_eq_of_forall_mem
    {α : Type}
    {f g : α → Bool}
    {xs : List α}
    (h : ∀ x ∈ xs, f x = g x) :
    xs.any f = xs.any g := by
  induction xs with
  | nil => rfl
  | cons x xs ih =>
      rcases List.forall_mem_cons.mp h with ⟨hHead, hTail⟩
      rw [List.any_cons, List.any_cons, hHead, ih hTail]

namespace SchemaPool

variable {compare compare' : SchemaId → SchemaId → Compat}

/- Optional parts are compared alike if their slots are. -/
theorem compatPart_congr
    {x y : Option SchemaId}
    (h : ∀ a ∈ x, ∀ b ∈ y, compare a b = compare' a b) :
    compatPart compare x y = compatPart compare' x y := by
  match x, y with
  | some a, some b => exact h a rfl b rfl
  | some _, none => rfl
  | none, _ => rfl

/- Fields are compared alike in turn if their slots are. -/
theorem foldl_compare_congr
    {fgs : List (Field × Field)}
    (h :
      ∀ fg ∈ fgs,
        compare fg.1.schema fg.2.schema = compare' fg.1.schema fg.2.schema)
    (c : Compat) :
    fgs.foldl (fun c fg => c.both (compare fg.1.schema fg.2.schema)) c =
      fgs.foldl (fun c fg => c.both (compare' fg.1.schema fg.2.schema))
        c := by
  induction fgs generalizing c with
  | nil => rfl
  | cons fg fgs ih =>
      rcases List.forall_mem_cons.mp h with ⟨hHead, hTail⟩
      rw [List.foldl_cons, List.foldl_cons, hHead]
      exact ih hTail _

namespace Paired

variable {T : Twins}
variable {p p' : SchemaPool}
variable {a b c d : SchemaId}

/- Twins are equal to twins of the same slots. -/
theorem beq_eq
    (h : Paired T p p')
    (hFirst : T.Rel a b)
    (hSecond : T.Rel c d) :
    (b == d) = (a == c) := by
  rw [Bool.eq_iff_iff, beq_iff_eq, beq_iff_eq]
  exact (h.same_iff a b c d hFirst hSecond).symm

theorem nameOf_eq
    (h : Paired T p p')
    (hRel : T.Rel a b) :
    p'.nameOf b = p.nameOf a := by
  unfold nameOf
  rw [h.get_eq a b hRel]

/- Names and ancestors are compared alike. -/
theorem compatNominal_eq
    (h : Paired T p p')
    (hFirst : T.Rel a b)
    (hSecond : T.Rel c d) :
    p'.compatNominal b d = p.compatNominal a c := by
  have hAncestors :
      ∀ {a b c d : SchemaId}, T.Rel a b → T.Rel c d →
        (p.get c).ancestors.any (fun x => p'.unwrap x == b) =
          (p.get c).ancestors.any (fun x => p.unwrap x == a) := by
    intro a b c d hFirst hSecond
    apply any_eq_of_forall_mem
    intro x hx
    have hOwn := T.own x ((h.within c d hSecond).ancestors x hx)
    exact h.beq_eq (h.unwrap x x hOwn) hFirst
  unfold compatNominal
  rw [h.get_eq a b hFirst, h.get_eq c d hSecond]
  dsimp only
  rw [hAncestors hFirst hSecond, hAncestors hSecond hFirst]

/- So are parts, if their parts are. -/
theorem compatParts_eq
    (h : Paired T p p')
    (hCompare :
      ∀ x < T.old, ∀ y < T.old, compare' x y = compare x y)
    (hFirst : T.Rel a b)
    (hSecond : T.Rel c d) :
    p'.compatParts compare' b d = p.compatParts compare a c := by
  have hs := h.within a b hFirst
  have hu := h.within c d hSecond
  have hPart :
      ∀ {x y : Option SchemaId},
        (∀ a ∈ x, a < T.old) → (∀ b ∈ y, b < T.old) →
        compatPart compare' x y = compatPart compare x y :=
    fun hx hy =>
      compatPart_congr fun a ha b hb =>
        hCompare a (hx a ha) b (hy b hb)
  have hEach :
      ∀ fg ∈ (p.get a).fields.zip (p.get c).fields,
        compare' fg.1.schema fg.2.schema =
          compare fg.1.schema fg.2.schema := by
    intro fg hMem
    rcases List.of_mem_zip hMem with ⟨hf, hg⟩
    exact hCompare _ (hs.fields _ hf) _ (hu.fields _ hg)
  unfold compatParts
  rw [h.get_eq a b hFirst, h.get_eq c d hSecond]
  simp only [hPart hs.element hu.element, hPart hs.key hu.key,
    hPart hs.value hu.value, foldl_compare_congr hEach .exact,
    h.compatNominal_eq hFirst hSecond]

theorem compatWithin_eq
    (h : Paired T p p')
    (n : Nat)
    (hFirst : T.Rel a b)
    (hSecond : T.Rel c d) :
    p'.compatWithin n b d = p.compatWithin n a c := by
  induction n generalizing a b c d with
  | zero => rfl
  | succ n ih =>
      have hEnds := h.unwrap a b hFirst
      have hOthers := h.unwrap c d hSecond
      unfold compatWithin
      dsimp only
      rw [h.beq_eq hEnds hOthers]
      split
      · rfl
      · apply h.compatParts_eq _ hEnds hOthers
        intro x hx y hy
        exact ih (T.own x hx) (T.own y hy)

/- Twins go together in both pools or in neither. -/
theorem compat_eq
    (h : Paired T p p')
    (hFirst : T.Rel a b)
    (hSecond : T.Rel c d) :
    p'.compat b d = p.compat a c :=
  h.compatWithin_eq compatDepth hFirst hSecond

/- A name stands for twins alike. -/
theorem names_eq
    (h : Paired T p p')
    (hRel : T.Rel a b)
    (name : String) :
    p'.names b name = p.names a name := by
  have hEnd := h.unwrap a b hRel
  have hAncestors :
      (p.get (p.unwrap a)).ancestors.any (fun x => p'.nameOf x == name) =
        (p.get (p.unwrap a)).ancestors.any
          (fun x => p.nameOf x == name) := by
    apply any_eq_of_forall_mem
    intro x hx
    rw [h.nameOf_eq (T.own x ((h.within _ _ hEnd).ancestors x hx))]
  unfold names
  simp only [List.any_cons, List.any_nil, h.get_eq a b hRel,
    h.get_eq _ _ (h.canonical a b hRel), h.get_eq _ _ hEnd, hAncestors]

/- So does a literal have the same meaning. -/
theorem checkLiteral_eq
    (h : Paired T p p')
    (hRel : T.Rel a b)
    (marker : Char)
    (l : Literal) :
    p'.checkLiteral marker b l = p.checkLiteral marker a l := by
  unfold checkLiteral Schema.checkLiteral
  rw [h.get_eq a b hRel]

theorem ordinalDomain_eq
    (h : Paired T p p')
    (hRel : T.Rel a b) :
    p'.ordinalDomain b = p.ordinalDomain a := by
  unfold ordinalDomain Schema.ordinalDomain
  rw [h.get_eq a b hRel]

end Paired

end SchemaPool

end MatchCompiler

------------------------------------------------------------
-- Checked Patterns Without Slots
------------------------------------------------------------

namespace MatchCompiler

namespace Checked

mutual

/- A checked pattern without the slots that it mentions. -/
def bare : Checked → Checked
| .bind span x inner => .bind span x inner.bare
| .alt span branches => .alt span (bareAll branches)
| .guarded span inner guard => .guarded span inner.bare guard
| .object span head fields =>
    .object span { head with schema := 0 } (bareFields fields)
| .some span inner => .some span inner.bare
| .tuple span items => .tuple span (bareItems items)
| .seq span layout fixed items none =>
    .seq span layout fixed (bareAll items) none
| .seq span layout fixed items (Option.some spread) =>
    .seq span layout fixed (bareAll items) (Option.some spread.bare)
| .map span entries => .map span (bareEntries entries)
| .typeIs span _ typeName => .typeIs span 0 typeName
| q => q
termination_by structural q => q

/- Several patterns without their slots. -/
def bareAll : List Checked → List Checked
| [] => []
| q :: qs => q.bare :: bareAll qs
termination_by structural qs => qs

/- The fields of an object without their slots. -/
def bareFields :
    List (FieldRead × Checked) → List (FieldRead × Checked)
| [] => []
| (read, q) :: fs => (read, q.bare) :: bareFields fs
termination_by structural fs => fs

/- The items of a tuple without their slots. -/
def bareItems : List (Nat × Checked) → List (Nat × Checked)
| [] => []
| (i, q) :: items => (i, q.bare) :: bareItems items
termination_by structural items => items

/- The entries of a map without their slots. -/
def bareEntries :
    List (Literal × Checked) → List (Literal × Checked)
| [] => []
| (key, q) :: es => (key, q.bare) :: bareEntries es
termination_by structural es => es

end

theorem bareAll_eq (qs : List Checked) :
    bareAll qs = qs.map bare := by
  induction qs with
  | nil => rfl
  | cons q qs ih => rw [bareAll, ih, List.map_cons]

theorem bareFields_eq (fs : List (FieldRead × Checked)) :
    bareFields fs = fs.map (Prod.map id bare) := by
  induction fs with
  | nil => rfl
  | cons f fs ih => rw [bareFields, ih, List.map_cons, Prod.map_apply', id]

theorem bareItems_eq (items : List (Nat × Checked)) :
    bareItems items = items.map (Prod.map id bare) := by
  induction items with
  | nil => rfl
  | cons f fs ih => rw [bareItems, ih, List.map_cons, Prod.map_apply', id]

theorem bareEntries_eq (es : List (Literal × Checked)) :
    bareEntries es = es.map (Prod.map id bare) := by
  induction es with
  | nil => rfl
  | cons e es ih => rw [bareEntries, ih, List.map_cons, Prod.map_apply', id]

theorem bare_seq
    (span : Span)
    (layout : SeqLayout)
    (fixed : Option Nat)
    (items : List Checked)
    (spread : Option Checked) :
    (seq span layout fixed items spread).bare =
      seq span layout fixed (items.map bare) (spread.map bare) := by
  cases spread with
  | none => rw [bare, bareAll_eq, Option.map_none]
  | some q => rw [bare, bareAll_eq, Option.map_some]

variable {t : Schema}

theorem labelsOfAll_bare
    {qs : List Checked}
    (h : ∀ q ∈ qs, q.bare.labels t = q.labels t)
    (known : List Member) :
    labelsOfAll t known (bareAll qs) = labelsOfAll t known qs := by
  induction qs generalizing known with
  | nil => rfl
  | cons q qs ih =>
      rcases List.forall_mem_cons.mp h with ⟨hHead, hTail⟩
      simp only [bareAll, labelsOfAll, hHead]
      split
      · rfl
      · exact ih hTail _

/- The labels that a pattern allows do not depend on slots. -/
theorem labels_bare (q : Checked) :
    q.bare.labels t = q.labels t := by
  induction q using partInduction with
  | wildcard s => rfl
  | bind s x p ih => exact ih
  | literal s l => rfl
  | alt s ps ih => exact labelsOfAll_bare ih []
  | guarded s p id ih => exact ih
  | object s head fs => rfl
  | some s p => rfl
  | tuple s items => rfl
  | seq s l fixed items spread => cases spread <;> rfl
  | map s es => rfl
  | set s p => rfl
  | typeIs s id name => rfl

end Checked

end MatchCompiler
