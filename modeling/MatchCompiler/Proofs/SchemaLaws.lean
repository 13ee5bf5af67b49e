import MatchCompiler.Proofs.Closedness
import MatchCompiler.Proofs.Inheritance

/-
  This file shows which properties all schemas of a registry
  have.

  Every slot holds a schema that is shared, one that was built
  for a descriptor, one that stands there until then, or a
  view of another slot. What holds of the first, does not
  depend on the descriptor, and is passed on to what is built
  and to views, holds of all slots at all times. What depends
  on the shape of the descriptor holds of its slot from the
  time when it is filled, unless it is a view.

  Key definitions include:
    * `Schema.Law`
    * `SchemaPool.Obeys`
    * `Extraction.HoldsShapes`

  Key theorems include:
    * `Move.obeys`
    * `Registry.Later.obeys`
    * `Registry.BuiltWith.obeys`
    * `Registry.BuiltWith.holdsShapes`
-/

------------------------------------------------------------
-- Laws Of Schemas
------------------------------------------------------------

namespace MatchCompiler

/-
  What shared schemas have, what does not depend on the
  descriptor, what views take over from their sources, and
  what is built if the schemas there are have it.
-/
structure Schema.Law
    (P : Schema → Prop) : Prop where
  unknown : ∀ name, P (.unknown name)
  primitive : ∀ kind name, P (.ofPrimitive kind name)
  sequence :
    ∀ name element,
      P { kind := .sequence, name, element := some element }
  described : ∀ {s} id, P s → P { s with descriptor := some id }
  view :
    ∀ {p : SchemaPool} kind source name,
      P (p.get source) → P (p.view kind source name)
  built :
    ∀ {t x env id origin slot name shape s noted},
      Built t x env id origin slot name shape s noted →
      (∀ slot, P (x.registry.pool.get slot)) → P s

/- The law that says nothing. -/
theorem Schema.law_trivial :
    Schema.Law fun _ => True where
  unknown := fun _ => trivial
  primitive := fun _ _ => trivial
  sequence := fun _ _ => trivial
  described := fun _ _ => trivial
  view := fun _ _ _ _ => trivial
  built := fun _ _ => trivial

namespace SchemaPool

/- All schemas of a pool obey a law. -/
def Obeys
    (p : SchemaPool)
    (P : Schema → Prop) : Prop :=
  ∀ slot, P (p.get slot)

namespace Obeys

variable {p : SchemaPool}
variable {P : Schema → Prop}
variable {s : Schema}

theorem push
    (h : p.Obeys P)
    (hs : P s) :
    (p.push s).1.Obeys P := by
  intro slot
  by_cases hNew : slot = p.size
  · rw [hNew, get_push_self]
    exact hs
  · rw [get_push_of_ne hNew]
    exact h slot

theorem share
    (h : p.Obeys P)
    (key : SyntheticKey)
    (hs : P s) :
    (p.share key s).1.Obeys P := by
  unfold SchemaPool.share
  cases p.synthetic.lookup key with
  | some id => exact h
  | none => exact h.push hs

theorem fill
    (h : p.Obeys P)
    (hLaw : Schema.Law P)
    (slot : SchemaId)
    (hs : P s) :
    (p.fill slot s).Obeys P := by
  intro other
  by_cases hSame : slot = other
  · subst hSame
    by_cases hLt : slot < p.size
    · rw [get_fill_self hLt]
      exact hs
    · rw [get_of_le (size_fill p slot s ▸ Nat.le_of_not_lt hLt)]
      exact hLaw.unknown ""
  · rw [get_fill_of_ne hSame]
    exact h other

end Obeys

end SchemaPool

/- Every move of an extraction keeps to a law. -/
theorem Move.obeys
    {P : Schema → Prop}
    (hLaw : Schema.Law P)
    {t : TypeTable}
    {x y : Extraction}
    (h : Move t x y)
    (hObeys : x.registry.pool.Obeys P) :
    y.registry.pool.Obeys P := by
  cases h with
  | memo => exact hObeys
  | hit => exact hObeys
  | miss => exact hObeys
  | unknown => exact hObeys.share .unknown (hLaw.unknown "<unknown>")
  | reserve => exact hObeys.push (hLaw.unknown _)
  | remember => exact hObeys
  | fill hGet hKey hSlot hPending hStacked hEnv hName hBuilt =>
      exact hObeys.fill hLaw _
        (hLaw.described _ (hLaw.built hBuilt hObeys))

/- So does rebuilding views. -/
theorem View.obeys_completeAll
    {P : Schema → Prop}
    (hLaw : Schema.Law P)
    (views : List View)
    {p : SchemaPool}
    (hObeys : p.Obeys P) :
    (completeAll views p).Obeys P := by
  refine completeAll_keeps (P := fun q => q.Obeys P)
    (fun q v _ hq => ?_) hObeys
  apply hq.fill hLaw
  exact hLaw.described _ (hLaw.view _ _ _ (hq v.source))

namespace Registry

variable {P : Schema → Prop}
variable {r r' : Registry}
variable {slot : SchemaId}

/- A use of a registry keeps to a law. -/
theorem Use.obeys
    (hLaw : Schema.Law P)
    (hUse : r.Use r' slot)
    (hBounded : r.Bounded)
    (hObeys : r.pool.Obeys P) :
    r'.pool.Obeys P := by
  cases hUse with
  | extract hExtracts =>
      rcases hExtracts.exists_runs hBounded with ⟨x, hRuns, -, rfl⟩
      refine View.obeys_completeAll hLaw _ ?_
      exact hRuns.invariant (P := fun x => x.registry.pool.Obeys P)
        (fun hMove => hMove.obeys hLaw) hObeys
  | primitive kind => exact hObeys.share _ (hLaw.primitive kind kind.name)
  | sequenceOf hElement => exact hObeys.share _ (hLaw.sequence _ _)
  | unknown => exact hObeys.share _ (hLaw.unknown _)

/- However a registry is used, its schemas keep to a law. -/
theorem Later.obeys
    (hLaw : Schema.Law P)
    (hLater : r.Later r')
    (hSettled : r.Settled)
    (hObeys : r.pool.Obeys P) :
    r'.pool.Obeys P := by
  induction hLater with
  | refl => exact hObeys
  | tail hBefore hUse ih =>
      rcases hUse with ⟨slot, hUse⟩
      have hNow := (Later.settled hBefore hSettled).1
      exact hUse.obeys hLaw hNow.closed.bounded ih

theorem obeys_fresh
    (hLaw : Schema.Law P)
    (marker : Char) :
    SchemaPool.Obeys ({ marker } : Registry).pool P := by
  intro slot
  rw [SchemaPool.get_of_le (Nat.zero_le slot)]
  exact hLaw.unknown ""

/- The schemas of a registry obey every law. -/
theorem BuiltWith.obeys
    (hLaw : Schema.Law P)
    {t : TypeTable}
    (h : r.BuiltWith t) :
    r.pool.Obeys P := by
  induction h with
  | fresh marker => exact obeys_fresh hLaw marker
  | extract hBuilt hExtracts ih =>
      exact (Use.extract hExtracts).obeys hLaw hBuilt.bounded ih
  | primitive hBuilt kind ih =>
      exact (Use.primitive kind).obeys hLaw hBuilt.bounded ih
  | sequenceOf hBuilt hElement ih =>
      exact (Use.sequenceOf hElement).obeys hLaw hBuilt.bounded ih
  | unknown hBuilt ih => exact Use.unknown.obeys hLaw hBuilt.bounded ih

end Registry

end MatchCompiler

------------------------------------------------------------
-- Shapes In Registries
------------------------------------------------------------

namespace MatchCompiler

/-
  An extraction in which all schemas obey a law, and what has
  been filled for a descriptor that is no view has a property
  that depends on its shape.
-/
structure Extraction.HoldsShapes
    (t : TypeTable)
    (P : Schema → Prop)
    (Q : Shape → Schema → Prop)
    (x : Extraction) : Prop where
  inheriting : x.Inheriting t
  obeys : x.registry.pool.Obeys P
  slots :
    ∀ key slot, x.registry.cache.lookup key = some slot →
      t.IsConcrete key.descriptor → slot ∉ x.pending →
      ∀ d, t.get? key.descriptor = some d →
        (∀ (kind : ViewKind) target, d.shape ≠ kind.shape target) →
        (x.registry.get slot).IsPlain ∧ Q d.shape (x.registry.get slot)

/- A property of what is built for shapes that are no views. -/
def Schema.ShapeLaw
    (P : Schema → Prop)
    (Q : Shape → Schema → Prop) : Prop :=
  ∀ {t x env id origin slot name shape s noted},
    Built t x env id origin slot name shape s noted →
    x.registry.pool.Obeys P →
    (∀ (kind : ViewKind) target, shape ≠ kind.shape target) →
    Q shape { s with descriptor := some id }

variable {t : TypeTable}
variable {P : Schema → Prop}
variable {Q : Shape → Schema → Prop}

namespace Extraction.HoldsShapes

variable {x y : Extraction}

/- A move keeps what holds of shapes. -/
theorem move
    (hLaw : Schema.Law P)
    (hShapes : Schema.ShapeLaw P Q)
    (hMove : Move t x y)
    (h : x.HoldsShapes t P Q) :
    y.HoldsShapes t P Q := by
  refine ⟨h.inheriting.move hMove, hMove.obeys hLaw h.obeys, ?_⟩
  refine hMove.forall_filled h.inheriting.bounded h.inheriting.coherent
    ?_ ?_
  · intro key slot hFound hConcrete hFilled
    have hLt := h.inheriting.bounded.registry.cache _ _ hFound
    rw [(hMove.get_eq hLt hFilled).1]
    exact h.slots key slot hFound hConcrete hFilled
  · intro id d env key slot name s noted hGet hKey hStacked hBuilt hSlot
      d' hGet' hNoView
    rw [hKey.descriptor_eq, hGet] at hGet'
    cases hGet'
    rw [hSlot]
    rcases hBuilt.isPlain_or_view with
      ⟨hPlain, -⟩ | ⟨kind, target, _, hShape, -⟩
    · exact ⟨⟨hPlain.target, hPlain.aliasName, hPlain.kind⟩,
        hShapes hBuilt h.obeys hNoView⟩
    · exact absurd hShape (hNoView kind target)

/- Rebuilding the views leaves what is no view as it is. -/
theorem completeAll
    (hLaw : Schema.Law P)
    (h : x.HoldsShapes t P Q)
    (hPending : x.pending = []) :
    Extraction.HoldsShapes t P Q
      { registry :=
          { x.registry with
            pool := View.completeAll x.views x.registry.pool } } := by
  refine ⟨h.inheriting.completeAll hPending,
    View.obeys_completeAll hLaw _ h.obeys, ?_⟩
  intro key slot hFound hConcrete _ d hGet hNoView
  have hBefore := h.slots key slot hFound hConcrete (hPending ▸ nofun)
    d hGet hNoView
  have hSame :
      (View.completeAll x.views x.registry.pool).get slot =
        x.registry.pool.get slot := by
    refine View.get_completeAll_of_ne fun v hv hEq => ?_
    have hShows := h.inheriting.noting.noted v hv
    rw [hEq] at hShows
    exact SchemaPool.not_links_of_isPlain hBefore.1 hShows
  unfold Registry.get at hBefore ⊢
  rw [hSame]
  exact hBefore

end Extraction.HoldsShapes

namespace Registry

variable {r : Registry}

/- What holds of all shapes when they are built holds of them. -/
theorem BuiltWith.holdsShapes
    (hLaw : Schema.Law P)
    (hShapes : Schema.ShapeLaw P Q)
    (h : r.BuiltWith t) :
    Extraction.HoldsShapes t P Q { registry := r } := by
  have hShare :
      ∀ {r : Registry} (key : SyntheticKey) (s : Schema),
        Extraction.Inheriting t
          { registry := { r with pool := (r.pool.share key s).1 } } →
        P s → Extraction.HoldsShapes t P Q { registry := r } →
        Extraction.HoldsShapes t P Q
          { registry := { r with pool := (r.pool.share key s).1 } } := by
    intro r key s hInheriting hs ih
    refine ⟨hInheriting, ih.obeys.share key hs, ?_⟩
    intro key' slot hFound hConcrete _ d hGet hNoView
    have hLt := ih.inheriting.bounded.registry.cache _ _ hFound
    have hSame := (r.pool.grows_share key s).get_eq hLt
    unfold Registry.get
    rw [hSame]
    exact ih.slots key' slot hFound hConcrete nofun d hGet hNoView
  induction h with
  | fresh marker =>
      exact ⟨(BuiltWith.fresh marker).inheriting, obeys_fresh hLaw marker,
        nofun⟩
  | extract hBuilt hExtracts ih =>
      rcases hExtracts.exists_runs hBuilt.bounded with ⟨x, hRuns, -, rfl⟩
      have hX := hRuns.invariant (P := Extraction.HoldsShapes t P Q)
        (fun hMove => .move hLaw hShapes hMove) ih
      exact hX.completeAll hLaw hRuns.grows.pending
  | primitive hBuilt kind ih =>
      exact hShare _ _ (hBuilt.primitive kind).inheriting
        (hLaw.primitive kind kind.name) ih
  | sequenceOf hBuilt hElement ih =>
      exact hShare _ _ (hBuilt.sequenceOf hElement).inheriting
        (hLaw.sequence _ _) ih
  | unknown hBuilt ih =>
      exact hShare _ _ hBuilt.unknown.inheriting (hLaw.unknown _) ih

end Registry

end MatchCompiler
