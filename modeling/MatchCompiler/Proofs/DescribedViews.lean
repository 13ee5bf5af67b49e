import MatchCompiler.Proofs.Inheritance
import MatchCompiler.Proofs.Typing

/-
  This file shows that the aliases and references of a table
  become views in a registry.

  The slot of an alias or a reference shows the slot that is
  found for what it stands for. It has an alias name just if
  it is an alias. So a chain of aliases and references leads
  from slot to slot, and a chain of aliases keeps the name.

  Key definitions include:
    * `ViewKind.Marks`
    * `ShowsTarget`
    * `Extraction.Viewing`

  Key theorems include:
    * `Extraction.Viewing.move`
    * `Registry.BuiltWith.viewing`
    * `Registry.exists_links_of_leads`
-/

------------------------------------------------------------
-- Slots Of Views
------------------------------------------------------------

namespace MatchCompiler

/- Aliases have an alias name, and references do not. -/
def ViewKind.Marks
    (kind : ViewKind)
    (s : Schema) : Prop :=
  s.aliasName.isSome = true ↔ kind = .alias

theorem ViewKind.marks_view
    (kind : ViewKind)
    (p : SchemaPool)
    (source : SchemaId)
    (name : String) :
    kind.Marks (p.view kind source name) := by
  unfold Marks SchemaPool.view Schema.view
  cases kind with
  | «alias» => exact iff_of_true rfl rfl
  | reference => exact iff_of_false nofun nofun

/-
  If a descriptor is a view, then its slot is marked as one of
  that kind and shows the slot found for the target.
-/
def ShowsTarget
    (t : TypeTable)
    (r : Registry)
    (key : ExtractionKey)
    (slot : SchemaId) : Prop :=
  ∀ d kind target, t.get? key.descriptor = some d →
    d.shape = ViewKind.shape target kind →
    kind.Marks (r.get slot) ∧
    ∃ source, r.Finds t key.args target source ∧ r.pool.Links slot source

/- A view is noted for a descriptor of its kind. -/
def View.MadeFor
    (t : TypeTable)
    (v : View) : Prop :=
  ∃ d target, t.get? v.descriptor = some d ∧
    d.shape = ViewKind.shape target v.kind

variable {t : TypeTable}
variable {r r' : Registry}
variable {pending pending' : List SchemaId}
variable {key : ExtractionKey}
variable {slot : SchemaId}

/- A view goes on to show its target. -/
theorem ShowsTarget.mono
    (h : ShowsTarget t r key slot)
    (hSettles : Settles r pending r' pending')
    (hMarks :
      (r'.get slot).aliasName.isSome = (r.get slot).aliasName.isSome) :
    ShowsTarget t r' key slot := by
  intro d kind target hGet hShape
  rcases h d kind target hGet hShape with ⟨hMarked, source, hFinds, hLinks⟩
  refine ⟨?_, source, hFinds.mono hSettles.recalls,
    hSettles.links slot source hLinks⟩
  unfold ViewKind.Marks
  rw [hMarks]
  exact hMarked

/- A view that is noted is made for the descriptor. -/
theorem Built.madeFor_of_noted
    {x : Extraction}
    {env : List SchemaId}
    {id : DescriptorId}
    {d : TypeDescriptor}
    {name : String}
    {s : Schema}
    {noted : List View}
    (hGet : t.get? id = some d)
    (h : Built t x env id d.origin slot name d.shape s noted)
    {v : View}
    (hNoted : v ∈ noted) :
    v.MadeFor t := by
  generalize hShape : d.shape = shape at h
  cases h with
  | @view kind target source _ _ hView _ hIf =>
      rw [hIf] at hNoted
      split at hNoted
      · cases List.mem_singleton.mp hNoted
        exact ⟨d, target, hGet, hShape.trans hView⟩
      · cases hNoted
  | _ => cases hNoted

end MatchCompiler

------------------------------------------------------------
-- Views While Types Are Extracted
------------------------------------------------------------

namespace MatchCompiler

/- An extraction in which all filled views show their targets. -/
structure Extraction.Viewing
    (t : TypeTable)
    (x : Extraction) : Prop where
  inheriting : x.Inheriting t
  noted : ∀ v ∈ x.views, v.MadeFor t
  slots :
    ∀ key slot, x.registry.cache.lookup key = some slot →
      t.IsConcrete key.descriptor → slot ∉ x.pending →
      ShowsTarget t x.registry key slot

namespace Extraction.Viewing

variable {t : TypeTable}
variable {x y : Extraction}

/- What was filled before a move is so after it. -/
theorem slot_of_filled
    (h : x.Viewing t)
    (hMove : Move t x y)
    {key : ExtractionKey}
    {slot : SchemaId}
    (hKey : x.registry.cache.lookup key = some slot)
    (hConcrete : t.IsConcrete key.descriptor)
    (hFilled : slot ∉ x.pending) :
    ShowsTarget t y.registry key slot := by
  have hLt := h.inheriting.bounded.registry.cache _ _ hKey
  apply (h.slots key slot hKey hConcrete hFilled).mono
    (hMove.settles h.inheriting.coherent h.inheriting.noting)
  rw [(hMove.get_eq hLt hFilled).1]

/- The slot that is filled. -/
theorem slot_of_built
    (h : x.Viewing t)
    (hMove : Move t x y)
    {id : DescriptorId}
    {d : TypeDescriptor}
    {env : List SchemaId}
    {key : ExtractionKey}
    {slot : SchemaId}
    {name : String}
    {s : Schema}
    {noted : List View}
    (hGet : t.get? id = some d)
    (hKey : x.registry.IsKey id env key)
    (hBuilt : Built t x env id d.origin slot name d.shape s noted)
    (hSlot : y.registry.get slot = { s with descriptor := some id }) :
    ShowsTarget t y.registry key slot := by
  intro d' kind target hGet' hShape
  rw [hKey.descriptor_eq, hGet] at hGet'
  cases hGet'
  generalize hOther : d.shape = shape at hBuilt
  cases hBuilt with
  | @view kind' target' source _ _ hView hSource _ =>
      rcases ViewKind.shape_inj (hShape.symm.trans (hOther.trans hView))
        with ⟨rfl, rfl⟩
      let v : View := { slot, source, kind, name, descriptor := id }
      have hMarks := kind.marks_view x.registry.pool source name
      have hShows := v.shows_rebuilt x.registry.pool
      have hRef : target ∈ d.shape.openRefs := by
        rw [hShape]
        cases kind <;> exact List.mem_singleton_self target
      have hFinds :=
        h.inheriting.coherent.finds hGet hKey hRef hSource
      have hRecalls := hMove.recalls h.inheriting.coherent
      refine ⟨?_, source, hFinds.mono hRecalls, ?_⟩
      · rw [hSlot]
        exact hMarks
      · change (y.registry.get slot).Shows source
        rw [hSlot]
        exact hShows
  | _ =>
      rw [hShape] at hOther
      cases kind <;> cases hOther

/- A move keeps what views show. -/
theorem move
    (hMove : Move t x y)
    (h : x.Viewing t) :
    y.Viewing t := by
  refine ⟨h.inheriting.move hMove, ?_, ?_⟩
  · cases hMove with
    | @fill id d env key slot rest name s noted hGet hKey hSlot hPending
        hStacked hEnv hName hBuilt =>
        intro v hv
        rcases List.mem_append.mp hv with hv | hv
        · exact h.noted v hv
        · exact hBuilt.madeFor_of_noted hGet hv
    | _ => exact h.noted
  · exact hMove.forall_filled h.inheriting.bounded h.inheriting.coherent
      (fun _ _ => h.slot_of_filled hMove)
      fun hGet hKey _ => h.slot_of_built hMove hGet hKey

/- Rebuilding the views keeps what they show. -/
theorem completeAll
    (h : x.Viewing t)
    (hPending : x.pending = []) :
    Extraction.Viewing t
      { registry :=
          { x.registry with
            pool := View.completeAll x.views x.registry.pool } } := by
  have hNoting := h.inheriting.noting
  rw [hPending] at hNoting
  have hSettles := View.settles_completeAll hNoting
  refine ⟨h.inheriting.completeAll hPending, nofun, ?_⟩
  intro key slot hFound hConcrete _
  have hBefore := h.slots key slot hFound hConcrete (hPending ▸ nofun)
  apply hBefore.mono hSettles
  by_cases hNoted : ∃ v ∈ x.views, v.slot = slot
  · rcases hNoted with ⟨v, hv, rfl⟩
    have hMarked : ∀ w ∈ x.views, w.kind.Marks (x.registry.get w.slot) := by
      intro w hw
      rcases h.inheriting.views w hw with
        ⟨other, hFound', hConcrete', hDescriptor⟩
      rcases h.noted w hw with ⟨d, target, hGet, hShape⟩
      exact (h.slots other w.slot hFound' hConcrete' (hPending ▸ nofun)
        d w.kind target (hDescriptor ▸ hGet) hShape).1
    have hAfter :=
      View.completeAll_noted hNoting (P := fun w s => w.kind.Marks s)
        (fun w q => w.kind.marks_view q w.source w.name) hMarked v hv
    exact Bool.eq_iff_iff.mpr (hAfter.trans (hMarked v hv).symm)
  · have hSame :
        (View.completeAll x.views x.registry.pool).get slot =
          x.registry.pool.get slot :=
      View.get_completeAll_of_ne fun v hv hEq => hNoted ⟨v, hv, hEq⟩
    exact congrArg (fun s => s.aliasName.isSome) hSame

end Extraction.Viewing

end MatchCompiler

------------------------------------------------------------
-- Chains Of Views
------------------------------------------------------------

namespace MatchCompiler

/- What leads to a type of a table is one of its types. -/
theorem TypeTable.Leads.isSome_get?
    {t : TypeTable}
    {through : ViewKind → Prop}
    {named target : DescriptorId}
    (h : t.Leads through (.described named) (.described target))
    (hTarget : (t.get? target).isSome = true) :
    (t.get? named).isSome = true := by
  cases h with
  | refl => exact hTarget
  | step _ hShows _ =>
      cases hShows with
      | view hShape =>
          rcases Option.map_eq_some_iff.mp hShape with ⟨d, hGet, -⟩
          rw [hGet]
          rfl

namespace Registry

variable {t : TypeTable}
variable {r : Registry}

/- Views show their targets in every registry that is built. -/
theorem BuiltWith.viewing
    (h : r.BuiltWith t) :
    Extraction.Viewing t { registry := r } := by
  have hShare :
      ∀ {r : Registry} (key : SyntheticKey) (s : Schema),
        Extraction.Inheriting t
          { registry := { r with pool := (r.pool.share key s).1 } } →
        Extraction.Viewing t { registry := r } →
        Extraction.Viewing t
          { registry := { r with pool := (r.pool.share key s).1 } } := by
    intro r key s hInheriting ih
    refine ⟨hInheriting, nofun, fun key' slot hFound hConcrete _ => ?_⟩
    apply (ih.slots key' slot hFound hConcrete nofun).mono
      (r.settles_share key s)
    have hLt := ih.inheriting.bounded.registry.cache _ _ hFound
    exact congrArg (fun s => s.aliasName.isSome)
      ((r.pool.grows_share key s).get_eq hLt)
  induction h with
  | fresh marker =>
      exact ⟨(BuiltWith.fresh marker).inheriting, nofun, nofun⟩
  | extract hBuilt hExtracts ih =>
      rcases hExtracts.exists_runs hBuilt.bounded with ⟨x, hRuns, -, rfl⟩
      have hX := hRuns.invariant
        (P := Extraction.Viewing t) Extraction.Viewing.move ih
      exact hX.completeAll hRuns.grows.pending
  | primitive hBuilt kind ih =>
      exact hShare _ _ (hBuilt.primitive kind).inheriting ih
  | sequenceOf hBuilt hElement ih =>
      exact hShare _ _ (hBuilt.sequenceOf hElement).inheriting ih
  | unknown hBuilt ih =>
      exact hShare _ _ hBuilt.unknown.inheriting ih

/- What leads to a descriptor is one that is remembered. -/
theorem Finds.remembers_of_leads
    {through : ViewKind → Prop}
    {ref : TypeRef}
    {slot : SchemaId}
    {target : DescriptorId}
    (h : r.Finds t [] ref slot)
    (hLeads : t.Leads through (t.typeOf ref) (.described target)) :
    ∃ next, r.Remembers next slot ∧ t.typeOf ref = .described next := by
  have hNothing : ¬ t.Leads through .anything (.described target) := by
    intro hLeads
    cases hLeads with
    | step _ hShows _ => cases hShows
  cases h with
  | @known id d parametric _ hGet hParametric hCache =>
      rw [ite_self] at hCache
      refine ⟨id, ⟨hParametric ▸ rfl, hCache⟩, ?_⟩
      exact TypeTable.typeOf_described hGet
  | dangling hGet =>
      simp only [TypeTable.typeOf, hGet] at hLeads
      exact absurd hLeads hNothing
  | argument => exact absurd hLeads hNothing
  | missing => exact absurd hLeads hNothing

/-
  A chain of aliases and references in the table, from a type
  that has been extracted, is a chain of views. A chain of
  aliases keeps the name.
-/
theorem exists_links_of_leads
    (hBuilt : r.BuiltWith t)
    (hAcyclic : r.pool.Acyclic)
    {through : ViewKind → Prop}
    {named target : DescriptorId}
    {a : SchemaId}
    (hNamed : r.Remembers named a)
    (hLeads : t.Leads through (.described named) (.described target)) :
    ∃ b, r.Remembers target b ∧
      Relation.ReflTransGen r.pool.Links a b ∧
      ((∀ kind, through kind → kind = .alias) →
        (r.get a).name = (r.get b).name) := by
  generalize hFirst : ValueType.described named = T at hLeads
  generalize hLast : ValueType.described target = U at hLeads
  induction hLeads generalizing named a with
  | refl =>
      cases hFirst.trans hLast.symm
      exact ⟨a, hNamed, .refl, fun _ => rfl⟩
  | @step kind _ _ _ hKind hShows hLeads ih =>
      cases hShows with
      | @view _ ref hShape =>
          cases hFirst
          rcases Option.map_eq_some_iff.mp hShape with ⟨d, hGet, hView⟩
          have hConcrete : t.IsConcrete named := by
            refine ⟨d, hGet, fun _ _ hGeneric => ?_⟩
            rw [hView] at hGeneric
            cases kind <;> cases hGeneric
          rcases hBuilt.viewing.slots ⟨named, []⟩ a hNamed.2 hConcrete
            nofun d kind ref hGet hView with
            ⟨hMarks, source, hFinds, hLinks⟩
          rcases hFinds.remembers_of_leads (hLast ▸ hLeads) with
            ⟨next, hNext, hType⟩
          rcases ih hNext hType.symm hLast with ⟨b, hb, hPath, hNames⟩
          refine ⟨b, hb, .head hLinks hPath, fun hAliases => ?_⟩
          have hAlias := hMarks.mpr (hAliases kind hKind)
          have hShown := hBuilt.slotShown (hAcyclic.grounded a)
          exact (congrArg Schema.name
            (hShown.get_eq_of_alias hLinks hAlias)).trans (hNames hAliases)

end Registry

end MatchCompiler
