import MatchCompiler.Proofs.Reuse
import Mathlib.Data.List.Nodup
import Mathlib.Data.List.Perm.Subperm

/-
  This file shows that aliases and references end up as views
  of what they stand for.

  While types are extracted a view may show a slot that is
  not filled, or that is itself a view of such a slot. All
  these views are noted: any other view shows a slot that
  does not change any more. At the end the noted views are
  rebuilt, each after the view that it shows, which succeeds
  if they do not go round in a circle.

  Key definitions include:
    * `SchemaPool.Acyclic`
    * `SchemaPool.Grounded`
    * `Noting`
    * `SlotShown`
    * `View.Settled`
    * `Registry.BuiltWith`

  Key theorems include:
    * `Noting.move`
    * `SlotShown.move`
    * `View.slotShown_completeAll`
    * `Registry.BuiltWith.slotShown`
    * `Registry.views_agree_with_targets`
-/

------------------------------------------------------------
-- Slots That Are Views
------------------------------------------------------------

namespace MatchCompiler

/- A schema marks a slot as a view of a source. -/
structure Schema.Shows
    (s : Schema)
    (source : SchemaId) : Prop where
  target : s.target = some source
  marked : s.aliasName.isSome = true ∨ s.kind = .reference

/- A view is as it has to be. -/
structure View.Settled
    (v : View)
    (p : SchemaPool) : Prop where
  source_lt : v.source < p.size
  get_slot : p.get v.slot = v.rebuilt p

/- What a view is rebuilt to shows its source. -/
theorem View.shows_rebuilt
    (v : View)
    (p : SchemaPool) :
    (v.rebuilt p).Shows v.source := by
  unfold rebuilt SchemaPool.view Schema.view
  cases v.kind with
  | «alias» => exact ⟨rfl, .inl rfl⟩
  | reference => exact ⟨rfl, .inr rfl⟩

/- A view is rebuilt from its source alone. -/
theorem View.rebuilt_congr
    {v : View}
    {p q : SchemaPool}
    (h : q.get v.source = p.get v.source) :
    v.rebuilt q = v.rebuilt p := by
  simp only [rebuilt, SchemaPool.view, Schema.view, h]

end MatchCompiler

------------------------------------------------------------
-- Views While Types Are Extracted
------------------------------------------------------------

namespace MatchCompiler

/-
  A slot is plain, or is a noted view, or is a view of a slot
  that is filled and not noted.
-/
def SlotShown
    (p : SchemaPool)
    (pending : List SchemaId)
    (views : List View)
    (slot : SchemaId) : Prop :=
  (p.get slot).IsPlain ∨ (∃ v ∈ views, v.slot = slot) ∨
    ∃ v : View, v.slot = slot ∧ v.source ∉ pending ∧
      (∀ w ∈ views, w.slot ≠ v.source) ∧ v.Settled p

/-
  The slots of a pool, some of them unfilled, and the views
  that are noted.
-/
structure Noting
    (p : SchemaPool)
    (pending : List SchemaId)
    (views : List View) : Prop where
  pending_lt : ∀ slot ∈ pending, slot < p.size
  pending_nodup : pending.Nodup
  pending_plain : ∀ slot ∈ pending, (p.get slot).IsPlain
  slot_lt : ∀ v ∈ views, v.slot < p.size
  source_lt : ∀ v ∈ views, v.source < p.size
  filled : ∀ v ∈ views, v.slot ∉ pending
  nodup : (views.map View.slot).Nodup
  noted : ∀ v ∈ views, (p.get v.slot).Shows v.source
  shown : ∀ slot, (p.get slot).IsPlain ∨ ∃ source, (p.get slot).Shows source

/- All views that may have to change are noted. -/
structure Showing
    (p : SchemaPool)
    (pending : List SchemaId)
    (views : List View) : Prop extends Noting p pending views where
  slots : ∀ slot, SlotShown p pending views slot

/- What is read from the pool is all that matters. -/
theorem SchemaPool.get_congr
    {p q : SchemaPool}
    (h : q.schemas = p.schemas) :
    q.get = p.get := by
  funext slot
  simp only [get, get?, h]

namespace Noting

variable {p : SchemaPool}
variable {pending : List SchemaId}
variable {views : List View}

/- A pool without slots. -/
theorem empty
    (h : p.size = 0) :
    Noting p [] [] := by
  refine ⟨nofun, List.nodup_nil, nofun, nofun, nofun, nofun,
    List.nodup_nil, nofun, fun slot => .inl ?_⟩
  rw [SchemaPool.get_of_le (h ▸ Nat.zero_le slot)]
  exact Schema.isPlain_unknown ""

theorem congr
    {q : SchemaPool}
    (h : Noting p pending views)
    (hSchemas : q.schemas = p.schemas) :
    Noting q pending views := by
  have hGet := SchemaPool.get_congr hSchemas
  have hSize : q.size = p.size := congrArg Array.size hSchemas
  exact
    { pending_lt := hSize ▸ h.pending_lt
      pending_nodup := h.pending_nodup
      pending_plain := hGet ▸ h.pending_plain
      slot_lt := hSize ▸ h.slot_lt
      source_lt := hSize ▸ h.source_lt
      filled := h.filled
      nodup := h.nodup
      noted := hGet ▸ h.noted
      shown := hGet ▸ h.shown }

/- A plain schema is appended. -/
theorem push
    (h : Noting p pending views)
    {s : Schema}
    (hPlain : s.IsPlain) :
    Noting (p.push s).1 pending views := by
  have hSize := p.size_push s
  have hGet : ∀ {slot}, slot < p.size → (p.push s).1.get slot = p.get slot :=
    fun hLt => SchemaPool.get_push_of_ne (Nat.ne_of_lt hLt) s
  refine
    { pending_lt := fun slot hs => ?_
      pending_nodup := h.pending_nodup
      pending_plain := fun slot hs => ?_
      slot_lt := fun v hv => ?_
      source_lt := fun v hv => ?_
      filled := h.filled
      nodup := h.nodup
      noted := fun v hv => ?_
      shown := fun slot => ?_ }
  · exact hSize ▸ Nat.lt_succ_of_lt (h.pending_lt slot hs)
  · rw [hGet (h.pending_lt slot hs)]
    exact h.pending_plain slot hs
  · exact hSize ▸ Nat.lt_succ_of_lt (h.slot_lt v hv)
  · exact hSize ▸ Nat.lt_succ_of_lt (h.source_lt v hv)
  · rw [hGet (h.slot_lt v hv)]
    exact h.noted v hv
  · by_cases hNew : slot = p.size
    · left
      rw [hNew, p.get_push_self]
      exact hPlain
    · rw [SchemaPool.get_push_of_ne hNew]
      exact h.shown slot

/- A plain schema is shared. -/
theorem share
    (h : Noting p pending views)
    (key : SyntheticKey)
    {s : Schema}
    (hPlain : s.IsPlain) :
    Noting (p.share key s).1 pending views := by
  unfold SchemaPool.share
  split
  · exact h
  · exact (h.push hPlain).congr rfl

/- A slot is reserved. -/
theorem reserve
    (h : Noting p pending views)
    (name : String) :
    Noting (p.push (Schema.unknown name)).1 (p.size :: pending) views := by
  have hPush := h.push (Schema.isPlain_unknown name)
  refine { hPush with
    pending_lt := fun slot hs => ?_
    pending_nodup := ?_
    pending_plain := fun slot hs => ?_
    filled := fun v hv hs => ?_ }
  · rcases List.mem_cons.mp hs with rfl | hs
    · rw [SchemaPool.size_push]
      exact Nat.lt_succ_self _
    · exact hPush.pending_lt slot hs
  · refine List.nodup_cons.mpr ⟨fun hMem => ?_, h.pending_nodup⟩
    exact Nat.lt_irrefl _ (h.pending_lt _ hMem)
  · rcases List.mem_cons.mp hs with rfl | hs
    · rw [SchemaPool.get_push_self]
      exact Schema.isPlain_unknown name
    · exact hPush.pending_plain slot hs
  · rcases List.mem_cons.mp hs with hEq | hs
    · exact Nat.lt_irrefl _ (hEq ▸ h.slot_lt v hv)
    · exact h.filled v hv hs

/-
  The last reserved slot is filled. It may be noted as a view
  if it is one.
-/
theorem fill
    {slot : SchemaId}
    {rest : List SchemaId}
    {s : Schema}
    (h : Noting p (slot :: rest) views)
    (hShown : s.IsPlain ∨ ∃ source, s.Shows source)
    {noted : List View}
    (hNoted :
      noted = [] ∨ ∃ v : View, noted = [v] ∧ v.slot = slot ∧
        v.source < p.size ∧ s.Shows v.source) :
    Noting (p.fill slot s) rest (views ++ noted) := by
  have hLt : slot < p.size := h.pending_lt slot List.mem_cons_self
  have hNodup := List.nodup_cons.mp h.pending_nodup
  have hNew :
      ∀ v ∈ noted, v.slot = slot ∧ v.source < p.size ∧
        s.Shows v.source := by
    intro v hv
    rcases hNoted with rfl | ⟨w, rfl, hw⟩
    · cases hv
    · cases List.mem_singleton.mp hv
      exact hw
  have hNe : ∀ v ∈ views, slot ≠ v.slot := by
    intro v hv hEq
    exact h.filled v hv (hEq ▸ List.mem_cons_self)
  refine
    { pending_lt := fun q hq => ?_
      pending_nodup := hNodup.2
      pending_plain := fun q hq => ?_
      slot_lt := fun v hv => ?_
      source_lt := fun v hv => ?_
      filled := fun v hv hq => ?_
      nodup := ?_
      noted := fun v hv => ?_
      shown := fun q => ?_ }
  · rw [SchemaPool.size_fill]
    exact h.pending_lt q (List.mem_cons_of_mem _ hq)
  · have hOther : slot ≠ q := fun hEq => hNodup.1 (hEq ▸ hq)
    rw [SchemaPool.get_fill_of_ne hOther]
    exact h.pending_plain q (List.mem_cons_of_mem _ hq)
  · rw [SchemaPool.size_fill]
    rcases List.mem_append.mp hv with hv | hv
    · exact h.slot_lt v hv
    · exact (hNew v hv).1 ▸ hLt
  · rw [SchemaPool.size_fill]
    rcases List.mem_append.mp hv with hv | hv
    · exact h.source_lt v hv
    · exact (hNew v hv).2.1
  · rcases List.mem_append.mp hv with hv | hv
    · exact h.filled v hv (List.mem_cons_of_mem _ hq)
    · exact hNodup.1 ((hNew v hv).1 ▸ hq)
  · rw [List.map_append]
    refine List.nodup_append.mpr ⟨h.nodup, ?_, ?_⟩
    · rcases hNoted with rfl | ⟨w, rfl, -⟩
      · exact List.nodup_nil
      · exact List.nodup_cons.mpr ⟨nofun, List.nodup_nil⟩
    · intro a ha b hb
      rcases List.mem_map.mp ha with ⟨v, hv, rfl⟩
      rcases List.mem_map.mp hb with ⟨w, hw, rfl⟩
      rw [(hNew w hw).1]
      exact Ne.symm (hNe v hv)
  · rcases List.mem_append.mp hv with hv | hv
    · rw [SchemaPool.get_fill_of_ne (hNe v hv)]
      exact h.noted v hv
    · rw [(hNew v hv).1, SchemaPool.get_fill_self hLt]
      exact (hNew v hv).2.2
  · by_cases hOther : slot = q
    · subst hOther
      rw [SchemaPool.get_fill_self hLt]
      exact hShown
    · rw [SchemaPool.get_fill_of_ne hOther]
      exact h.shown q

end Noting

section

variable {t : TypeTable}
variable {x : Extraction}
variable {env : List SchemaId}
variable {id : DescriptorId}
variable {origin : Origin}
variable {slot : SchemaId}
variable {name : String}
variable {shape : Shape}
variable {s : Schema}
variable {noted : List View}

/- What is built for a shape is plain, or the shape is a view. -/
theorem Built.isPlain_or_view
    (h : Built t x env id origin slot name shape s noted) :
    (s.IsPlain ∧ noted = []) ∨
    ∃ kind target source, shape = ViewKind.shape target kind ∧
      x.registry.Finds t env target source ∧
      s = x.registry.pool.view kind source name ∧
      noted =
        if x.pending.contains source ||
            x.views.any (fun w => w.slot == source) then
          [{ slot, source, kind, name, descriptor := id }]
        else
          [] := by
  cases h with
  | primitive kind => exact .inl ⟨⟨rfl, rfl, nofun⟩, rfl⟩
  | enumeration members => exact .inl ⟨⟨rfl, rfl, nofun⟩, rfl⟩
  | unknown => exact .inl ⟨⟨rfl, rfl, nofun⟩, rfl⟩
  | misfit => exact .inl ⟨⟨rfl, rfl, nofun⟩, rfl⟩
  | tuple => exact .inl ⟨⟨rfl, rfl, nofun⟩, rfl⟩
  | object hObject => exact .inl ⟨hObject.isPlain, rfl⟩
  | container => exact .inl ⟨Container.isPlain_schema _ _ _, rfl⟩
  | @view kind target source _ _ hShape hSource hNoted =>
      exact .inr ⟨kind, target, source, hShape, hSource, rfl, hNoted⟩

/-
  What is built for a slot is plain, or shows a source and is
  noted for that if at all.
-/
theorem Built.noting
    (h : Built t x env id origin slot name shape s noted)
    (hBounded : x.registry.Bounded)
    (hEnv : ∀ s ∈ env, s < x.registry.pool.size) :
    (s.IsPlain ∧ noted = []) ∨
    ∃ v : View, v.slot = slot ∧ v.descriptor = id ∧
      v.source < x.registry.pool.size ∧
      { s with descriptor := some id } = v.rebuilt x.registry.pool ∧
      noted =
        if x.pending.contains v.source ||
            x.views.any (fun w => w.slot == v.source) then
          [v]
        else
          [] := by
  rcases h.isPlain_or_view with
    hPlain | ⟨kind, target, source, -, hSource, rfl, hNoted⟩
  · exact .inl hPlain
  · let v : View := { slot, source, kind, name, descriptor := id }
    exact .inr ⟨v, rfl, rfl, hSource.lt hBounded hEnv, rfl, hNoted⟩

end

/- Every move keeps account of the slots. -/
theorem Noting.move
    {t : TypeTable}
    {x y : Extraction}
    (hMove : Move t x y)
    (hBounded : x.Bounded)
    (h : Noting x.registry.pool x.pending x.views) :
    Noting y.registry.pool y.pending y.views := by
  cases hMove with
  | memo => exact h
  | hit => exact h
  | miss => exact h
  | remember => exact h
  | unknown => exact h.share _ (Schema.isPlain_unknown _)
  | @reserve id d env key => exact h.reserve d.name
  | @fill id d env key slot rest name s noted hGet hKey hSlot hPending
      hStacked hEnv hName hBuilt =>
      have hRest : (x.pending.erase slot) = rest := by simp [hPending]
      change Noting (x.registry.pool.fill slot _) (x.pending.erase slot)
        (x.views ++ noted)
      rw [hRest]
      rw [hPending] at h
      rcases hBuilt.noting hBounded.registry hEnv with
        ⟨hPlain, rfl⟩ | ⟨v, rfl, -, hLt, hView, hNoted⟩
      · refine h.fill (.inl ?_) (.inl rfl)
        exact ⟨hPlain.target, hPlain.aliasName, hPlain.kind⟩
      · have hShows := v.shows_rebuilt x.registry.pool
        rw [hView]
        refine h.fill (.inr ⟨_, hShows⟩) ?_
        split at hNoted
        · exact .inr ⟨v, hNoted, rfl, hLt, hShows⟩
        · exact .inl hNoted

namespace SlotShown

variable {p : SchemaPool}
variable {pending : List SchemaId}
variable {views : List View}
variable {slot : SchemaId}

theorem congr
    {q : SchemaPool}
    (h : SlotShown p pending views slot)
    (hSchemas : q.schemas = p.schemas) :
    SlotShown q pending views slot := by
  have hGet := SchemaPool.get_congr hSchemas
  have hSize : q.size = p.size := congrArg Array.size hSchemas
  rcases h with hPlain | hView | ⟨v, hv, hIn, hNot, hSet⟩
  · exact .inl (hGet ▸ hPlain)
  · exact .inr (.inl hView)
  · refine .inr (.inr ⟨v, hv, hIn, hNot, hSize ▸ hSet.source_lt, ?_⟩)
    rw [hGet, hSet.get_slot, View.rebuilt_congr (congrFun hGet v.source)]

/- A slot that was not there changes nothing. -/
theorem push
    (h : SlotShown p pending views slot)
    {s : Schema}
    (hPlain : s.IsPlain)
    {pending' : List SchemaId}
    (hPending : ∀ slot < p.size, slot ∉ pending → slot ∉ pending') :
    SlotShown (p.push s).1 pending' views slot := by
  by_cases hNew : slot = p.size
  · left
    rw [hNew, p.get_push_self]
    exact hPlain
  · rcases h with hOld | hView | ⟨v, rfl, hIn, hNot, hSet⟩
    · left
      rw [SchemaPool.get_push_of_ne hNew]
      exact hOld
    · exact .inr (.inl hView)
    · refine .inr (.inr
        ⟨v, rfl, hPending _ hSet.source_lt hIn, hNot, ?_, ?_⟩)
      · rw [SchemaPool.size_push]
        exact Nat.lt_succ_of_lt hSet.source_lt
      · rw [SchemaPool.get_push_of_ne hNew, hSet.get_slot,
          View.rebuilt_congr
            (SchemaPool.get_push_of_ne (Nat.ne_of_lt hSet.source_lt) s)]

/- A plain schema is shared. -/
theorem share
    (h : SlotShown p pending views slot)
    (key : SyntheticKey)
    {s : Schema}
    (hPlain : s.IsPlain) :
    SlotShown (p.share key s).1 pending views slot := by
  unfold SchemaPool.share
  split
  · exact h
  · exact (h.push hPlain fun _ _ hNot => hNot).congr rfl

/- A slot is reserved. -/
theorem reserve
    (h : SlotShown p pending views slot)
    (name : String) :
    SlotShown (p.push (Schema.unknown name)).1 (p.size :: pending) views
      slot := by
  refine h.push (Schema.isPlain_unknown name) fun slot hLt hNot => ?_
  rw [List.mem_cons, not_or]
  exact ⟨Nat.ne_of_lt hLt, hNot⟩

/- Filling a slot leaves the other slots. -/
theorem fill
    {other : SchemaId}
    {rest : List SchemaId}
    {s : Schema}
    (h : SlotShown p (slot :: rest) views other)
    {noted : List View}
    (hNoted : ∀ v ∈ noted, v.slot = slot)
    (hOther : slot ≠ other) :
    SlotShown (p.fill slot s) rest (views ++ noted) other := by
  rcases h with hPlain | ⟨v, hv, hEq⟩ | ⟨v, rfl, hIn, hNot, hSet⟩
  · left
    rw [SchemaPool.get_fill_of_ne hOther]
    exact hPlain
  · exact .inr (.inl ⟨v, List.mem_append_left _ hv, hEq⟩)
  · rw [List.mem_cons, not_or] at hIn
    refine .inr (.inr ⟨v, rfl, hIn.2, fun w hw => ?_, ?_, ?_⟩)
    · rcases List.mem_append.mp hw with hw | hw
      · exact hNot w hw
      · rw [hNoted w hw]
        exact Ne.symm hIn.1
    · rw [SchemaPool.size_fill]
      exact hSet.source_lt
    · rw [SchemaPool.get_fill_of_ne hOther, hSet.get_slot,
        View.rebuilt_congr (SchemaPool.get_fill_of_ne (Ne.symm hIn.1) s)]

end SlotShown

/- Every move keeps account of every slot. -/
theorem SlotShown.move
    {t : TypeTable}
    {x y : Extraction}
    (hMove : Move t x y)
    (hBounded : x.Bounded)
    (hNoting : Noting x.registry.pool x.pending x.views)
    {q : SchemaId}
    (h : SlotShown x.registry.pool x.pending x.views q) :
    SlotShown y.registry.pool y.pending y.views q := by
  cases hMove with
  | memo => exact h
  | hit => exact h
  | miss => exact h
  | remember => exact h
  | unknown => exact h.share _ (Schema.isPlain_unknown _)
  | @reserve id d env key => exact h.reserve d.name
  | @fill id d env key slot rest name s noted hGet hKey hSlot hPending
      hStacked hEnv hName hBuilt =>
      have hRest : (x.pending.erase slot) = rest := by simp [hPending]
      change SlotShown (x.registry.pool.fill slot _)
        (x.pending.erase slot) (x.views ++ noted) q
      rw [hRest]
      rw [hPending] at h hNoting
      have hLt : slot < x.registry.pool.size :=
        hNoting.pending_lt slot List.mem_cons_self
      by_cases hOther : slot = q
      · subst hOther
        rcases hBuilt.noting hBounded.registry hEnv with
          ⟨hPlain, rfl⟩ | ⟨v, rfl, -, hSource, hView, hNoted⟩
        · left
          rw [SchemaPool.get_fill_self hLt]
          exact ⟨hPlain.target, hPlain.aliasName, hPlain.kind⟩
        · rw [hView]
          split at hNoted
          · -- The source may change: the view is noted.
            exact .inr (.inl ⟨v, by simp [hNoted], rfl⟩)
          · rename_i hFinal
            subst hNoted
            simp only [hPending, List.contains_cons, Bool.or_eq_true,
              beq_iff_eq, List.contains_iff_mem, List.any_eq_true,
              not_or, not_exists, not_and] at hFinal
            rcases hFinal with ⟨⟨hNe, hIn⟩, hNot⟩
            refine .inr (.inr ⟨v, rfl, hIn, ?_, ?_, ?_⟩)
            · rw [List.append_nil]
              exact hNot
            · rw [SchemaPool.size_fill]
              exact hSource
            · rw [SchemaPool.get_fill_self hLt]
              exact (View.rebuilt_congr
                (SchemaPool.get_fill_of_ne (Ne.symm hNe) _)).symm
      · exact h.fill (fun v hv => hBuilt.slot_of_noted hv) hOther

end MatchCompiler

------------------------------------------------------------
-- Rebuilding
------------------------------------------------------------

namespace MatchCompiler

namespace View

/- A noted view shows another. -/
def Before
    (views : List View)
    (slot source : SchemaId) : Prop :=
  ∃ v ∈ views, v.slot = slot ∧ v.source = source

section

variable {views : List View}
variable {p : SchemaPool}
variable {done path : List SchemaId}

/-
  Some views have been entered. Those of a set that are not on
  the path to the current one are settled, and so are the
  views that they show.
-/
def Entered
    (S : SchemaId → Prop)
    (views : List View)
    (p : SchemaPool)
    (done path : List SchemaId) : Prop :=
  ∀ v ∈ views, S v.slot → v.slot ∈ done → v.slot ∉ path →
    p.get v.slot = v.rebuilt p ∧
    ∀ w ∈ views, w.slot = v.source → w.slot ∈ done ∧ w.slot ∉ path

variable {S : SchemaId → Prop}
variable (hNodup : (views.map View.slot).Nodup)
variable (hClosed : ∀ v ∈ views, S v.slot ↔ S v.source)
variable
  (hAcyclic :
    ∀ slot, S slot → ¬ Relation.TransGen (Before views) slot slot)

include hNodup in
theorem eq_of_slot_eq
    {v w : View}
    (hv : v ∈ views)
    (hw : w ∈ views)
    (h : v.slot = w.slot) :
    v = w :=
  List.inj_on_of_nodup_map hNodup hv hw h

section

include hNodup hAcyclic

/- The last view on a path is settled when its source is. -/
theorem Entered.fill
    {v : View}
    (hMem : v ∈ views)
    (hIn : S v.slot)
    (hLt : v.slot < p.size)
    (hPath : ∀ slot ∈ path, Relation.TransGen (Before views) slot v.slot)
    (hSource : ∀ w ∈ views, w.slot = v.source → w.slot ∈ done)
    (h : Entered S views p done (v.slot :: path)) :
    Entered S views (p.fill v.slot (v.rebuilt p)) done path := by
  have hShows : Before views v.slot v.source := ⟨v, hMem, rfl, rfl⟩
  have hSelf : v.slot ≠ v.source := fun hEq =>
    hAcyclic v.slot hIn (.single (hEq ▸ hShows))
  intro u hu huIn huDone hNot
  by_cases hSame : u.slot = v.slot
  · cases eq_of_slot_eq hNodup hu hMem hSame
    refine ⟨?_, fun w hw hEq => ⟨hSource w hw hEq, fun hOn => ?_⟩⟩
    · rw [SchemaPool.get_fill_self hLt]
      exact (rebuilt_congr (SchemaPool.get_fill_of_ne hSelf _)).symm
    · -- A view on the path that is shown by the last one is a circle.
      exact hAcyclic v.slot hIn (.head (hEq ▸ hShows) (hPath w.slot hOn))
  · have hNot' : u.slot ∉ v.slot :: path := by
      rw [List.mem_cons, not_or]
      exact ⟨hSame, hNot⟩
    rcases h u hu huIn huDone hNot' with ⟨hGet, hShown⟩
    have hOther : v.slot ≠ u.source := fun hEq =>
      (hShown v hMem hEq).2 List.mem_cons_self
    refine ⟨?_, fun w hw hEq => ?_⟩
    · rw [SchemaPool.get_fill_of_ne (Ne.symm hSame), hGet]
      exact (rebuilt_congr (SchemaPool.get_fill_of_ne hOther _)).symm
    · rcases hShown w hw hEq with ⟨hDone', hOff⟩
      exact ⟨hDone', fun hOn => hOff (List.mem_cons_of_mem _ hOn)⟩

end

include hNodup hClosed hAcyclic in
/-
  Rebuilding a view of the set settles it. The induction is on
  the number of steps, which lasts as long as the path can.
-/
theorem entered_complete
    (n : Nat)
    {v : View}
    (hMem : v ∈ views)
    (hIn : S v.slot)
    (hLt : ∀ w ∈ views, w.slot < p.size)
    (hFuel : views.length ≤ n + path.length)
    (hPath : ∀ slot ∈ path, Relation.TransGen (Before views) slot v.slot)
    (hOnce : path.Nodup)
    (hOnPath : path ⊆ views.map View.slot)
    (h : Entered S views p done path) :
    Entered S views (complete views n v (done, p)).2
      (complete views n v (done, p)).1 path ∧
    v.slot ∈ (complete views n v (done, p)).1 ∧
    done ⊆ (complete views n v (done, p)).1 := by
  have hNew : v.slot ∉ path := fun hOn => hAcyclic _ hIn (hPath _ hOn)
  have hOnce' : (v.slot :: path).Nodup := List.nodup_cons.mpr ⟨hNew, hOnce⟩
  have hOnPath' : v.slot :: path ⊆ views.map View.slot :=
    List.cons_subset.mpr ⟨List.mem_map_of_mem hMem, hOnPath⟩
  induction n generalizing v done p path with
  | zero =>
      have hLength := (List.subperm_of_subset hOnce' hOnPath').length_le
      simp only [List.length_cons, List.length_map] at hLength
      omega
  | succ n ih =>
      unfold complete
      split
      · rename_i hDone
        exact ⟨h, List.contains_iff_mem.mp hDone, List.Subset.refl _⟩
      · rename_i hDone
        rw [List.contains_iff_mem] at hDone
        have hStart :
            Entered S views p (v.slot :: done) (v.slot :: path) := by
          intro u hu huIn huDone hNot
          rw [List.mem_cons, not_or] at hNot
          rcases List.mem_cons.mp huDone with hEq | huDone
          · exact absurd hEq hNot.1
          · rcases h u hu huIn huDone hNot.2 with ⟨hGet, hShown⟩
            refine ⟨hGet, fun w hw hEq => ?_⟩
            rcases hShown w hw hEq with ⟨hwDone, hwOff⟩
            refine ⟨List.mem_cons_of_mem _ hwDone, ?_⟩
            rw [List.mem_cons, not_or]
            exact ⟨fun hSame => hDone (hSame ▸ hwDone), hwOff⟩
        cases hFind : views.find? (fun w => w.slot == v.source) with
        | none =>
            have hNone := List.find?_eq_none.mp hFind
            refine ⟨hStart.fill hNodup hAcyclic hMem hIn (hLt v hMem) hPath
              fun w hw hEq => ?_, List.mem_cons_self,
              List.subset_cons_self _ _⟩
            exact absurd (beq_iff_eq.mpr hEq) (hNone w hw)
        | some w =>
            have hw := List.mem_of_find?_eq_some hFind
            have hSlot : w.slot = v.source := by
              simpa using List.find?_some hFind
            have hwIn : S w.slot := hSlot ▸ (hClosed v hMem).mp hIn
            have hShows : Before views v.slot w.slot :=
              ⟨v, hMem, rfl, hSlot.symm⟩
            have hPath' :
                ∀ slot ∈ v.slot :: path,
                  Relation.TransGen (Before views) slot w.slot := by
              intro slot hOn
              rcases List.mem_cons.mp hOn with rfl | hOn
              · exact .single hShows
              · exact (hPath slot hOn).tail hShows
            have hwNew : w.slot ∉ v.slot :: path :=
              fun hOn => hAcyclic _ hwIn (hPath' _ hOn)
            rcases ih hw hwIn hLt
                (by simp only [List.length_cons]; omega) hPath' hOnce'
                hOnPath' hStart hwNew
                (List.nodup_cons.mpr ⟨hwNew, hOnce'⟩)
                (List.cons_subset.mpr
                  ⟨List.mem_map_of_mem hw, hOnPath'⟩) with
              ⟨hEntered, hwDone, hSubset⟩
            have hvDone := hSubset List.mem_cons_self
            have hSize :
                (complete views n w (v.slot :: done, p)).2.size = p.size :=
              complete_keeps (P := fun q => q.size = p.size)
                (fun _ _ _ hSize =>
                  (SchemaPool.size_fill _ _ _).trans hSize) n hw _ rfl
            refine ⟨hEntered.fill hNodup hAcyclic hMem hIn
              (hSize ▸ hLt v hMem) hPath fun u hu hEq => ?_, hvDone,
              fun slot hOn => hSubset (List.mem_cons_of_mem _ hOn)⟩
            cases eq_of_slot_eq hNodup hu hw (hEq.trans hSlot.symm)
            exact hwDone

include hClosed in
/-
  Rebuilding a view outside the set leaves the views in it, as
  it comes to views outside only.
-/
theorem entered_complete_outside
    (n : Nat)
    {v : View}
    (hMem : v ∈ views)
    (hOut : ¬ S v.slot)
    (h : Entered S views p done path) :
    Entered S views (complete views n v (done, p)).2
      (complete views n v (done, p)).1 path ∧
    done ⊆ (complete views n v (done, p)).1 := by
  induction n generalizing v done with
  | zero => exact ⟨h, List.Subset.refl _⟩
  | succ n ih =>
      have hFill :
          ∀ {q done'}, Entered S views q done' path →
            Entered S views (q.fill v.slot (v.rebuilt q)) done' path := by
        intro q done' hEntered u hu huIn huDone hNot
        rcases hEntered u hu huIn huDone hNot with ⟨hGet, hShown⟩
        have hSlot : v.slot ≠ u.slot := fun hEq => hOut (hEq ▸ huIn)
        have hSource : v.slot ≠ u.source :=
          fun hEq => hOut (hEq ▸ (hClosed u hu).mp huIn)
        refine ⟨?_, hShown⟩
        rw [SchemaPool.get_fill_of_ne hSlot, hGet]
        exact (rebuilt_congr (SchemaPool.get_fill_of_ne hSource _)).symm
      have hStart : Entered S views p (v.slot :: done) path := by
        intro u hu huIn huDone hNot
        rcases List.mem_cons.mp huDone with hEq | huDone
        · exact absurd (hEq ▸ huIn) hOut
        · rcases h u hu huIn huDone hNot with ⟨hGet, hShown⟩
          refine ⟨hGet, fun w hw hEq => ?_⟩
          exact ⟨List.mem_cons_of_mem _ (hShown w hw hEq).1,
            (hShown w hw hEq).2⟩
      unfold complete
      split
      · exact ⟨h, List.Subset.refl _⟩
      · cases hFind : views.find? (fun w => w.slot == v.source) with
        | none => exact ⟨hFill hStart, List.subset_cons_self _ _⟩
        | some w =>
            have hSlot : w.slot = v.source := by
              simpa using List.find?_some hFind
            rcases ih (List.mem_of_find?_eq_some hFind)
                (hSlot ▸ mt (hClosed v hMem).mpr hOut) hStart with
              ⟨hEntered, hSubset⟩
            exact ⟨hFill hEntered,
              fun slot hOn => hSubset (List.mem_cons_of_mem _ hOn)⟩

include hNodup hClosed hAcyclic in
/- The noted views of the set are settled in the end. -/
theorem get_completeAll
    (hLt : ∀ w ∈ views, w.slot < p.size) :
    ∀ v ∈ views, S v.slot →
      (completeAll views p).get v.slot =
        v.rebuilt (completeAll views p) := by
  suffices
      ∀ (vs : List View) (state : List SchemaId × SchemaPool),
        vs ⊆ views → Entered S views state.2 state.1 [] →
        state.2.size = p.size →
        (∀ v ∈ views, S v.slot → v.slot ∉ state.1 → v ∈ vs) →
        ∀ v ∈ views, S v.slot →
          (vs.foldl (fun state v => complete views views.length v state)
            state).2.get v.slot =
          v.rebuilt (vs.foldl
            (fun state v => complete views views.length v state) state).2 from
    this views ([], p) (List.Subset.refl _)
      (fun _ _ _ hIn => absurd hIn List.not_mem_nil) rfl
      (fun v hv _ _ => hv)
  intro vs
  induction vs with
  | nil =>
      intro state hSubset hEntered hSize hAll v hv hIn
      by_cases hDone : v.slot ∈ state.1
      · exact (hEntered v hv hIn hDone nofun).1
      · exact nomatch hAll v hv hIn hDone
  | cons w ws ih =>
      intro state hSubset hEntered hSize hAll
      rcases List.cons_subset.mp hSubset with ⟨hw, hRest⟩
      have hNext :
          Entered S views (complete views views.length w state).2
            (complete views views.length w state).1 [] ∧
          (S w.slot → w.slot ∈ (complete views views.length w state).1) ∧
          state.1 ⊆ (complete views views.length w state).1 := by
        by_cases hIn : S w.slot
        · rcases entered_complete hNodup hClosed hAcyclic views.length hw hIn
              (hSize ▸ hLt) (Nat.le_add_right _ _)
              (fun _ hOn => absurd hOn List.not_mem_nil) List.nodup_nil
              (List.nil_subset _) hEntered with ⟨hEntered', hDone, hKept⟩
          exact ⟨hEntered', fun _ => hDone, hKept⟩
        · rcases entered_complete_outside hClosed views.length hw hIn
              hEntered with ⟨hEntered', hKept⟩
          exact ⟨hEntered', fun hIn' => absurd hIn' hIn, hKept⟩
      rcases hNext with ⟨hEntered', hDone, hKept⟩
      refine ih _ hRest hEntered' ?_ fun v hv hIn hNot => ?_
      · exact complete_keeps (P := fun q => q.size = p.size)
          (fun _ _ _ hSize => (SchemaPool.size_fill _ _ _).trans hSize)
          _ hw _ hSize
      · rcases List.mem_cons.mp
            (hAll v hv hIn fun hOn => hNot (hKept hOn)) with rfl | hMem
        · exact absurd (hDone hIn) hNot
        · exact hMem

end

end View

end MatchCompiler

------------------------------------------------------------
-- Registries That Are Built
------------------------------------------------------------

namespace MatchCompiler

namespace SchemaPool

/- An alias or a reference, and what it shows. -/
def Links
    (p : SchemaPool)
    (slot source : SchemaId) : Prop :=
  (p.get slot).Shows source

/- Aliases and references do not go round in a circle. -/
def Acyclic (p : SchemaPool) : Prop :=
  ∀ slot, ¬ Relation.TransGen p.Links slot slot

/- Every slot is plain or a settled view. -/
def AllSettled (p : SchemaPool) : Prop :=
  Showing p [] []

/- No circle of aliases and references is behind a slot. -/
def Grounded
    (p : SchemaPool)
    (slot : SchemaId) : Prop :=
  ∀ source, Relation.ReflTransGen p.Links slot source →
    ¬ Relation.TransGen p.Links source source

variable {p q : SchemaPool}
variable {a b c : SchemaId}

/- A plain schema shows nothing. -/
theorem not_links_of_isPlain
    (h : (p.get a).IsPlain) :
    ¬ p.Links a b := by
  intro hLinks
  have hTarget := hLinks.target
  rw [h.target] at hTarget
  cases hTarget

theorem Links.unique
    (h : p.Links a b)
    (h' : p.Links a c) :
    b = c :=
  Option.some.inj (h.target.symm.trans h'.target)

/- A view is in the pool. -/
theorem Links.lt
    (h : p.Links a b) :
    a < p.size := by
  by_contra hLe
  refine not_links_of_isPlain ?_ h
  rw [get_of_le (Nat.le_of_not_lt hLe)]
  exact Schema.isPlain_unknown ""

/- A pool that has grown has the links of the old one. -/
theorem Links.mono
    (h : p.Links a b)
    (hGrows : p.Grows q) :
    q.Links a b := by
  unfold Links
  rw [hGrows.get_eq h.lt]
  exact h

theorem Acyclic.grounded
    (h : p.Acyclic)
    (slot : SchemaId) :
    p.Grounded slot :=
  fun source _ => h source

/- A view is grounded if and only if its source is. -/
theorem Links.grounded_iff
    (h : p.Links a b) :
    p.Grounded a ↔ p.Grounded b := by
  refine ⟨fun hGrounded source hPath => hGrounded source (.head h hPath),
    fun hGrounded source hPath hCircle => ?_⟩
  rcases Relation.ReflTransGen.cases_head hPath with
    rfl | ⟨next, hLinks, hRest⟩
  · -- A circle through the view goes through its source.
    rcases Relation.TransGen.head'_iff.mp hCircle with
      ⟨next, hLinks, hRest⟩
    cases h.unique hLinks
    exact hGrounded a hRest hCircle
  · cases h.unique hLinks
    exact hGrounded source hRest hCircle

/- What is grounded was so before the pool had grown. -/
theorem Grounded.of_grows
    {slot : SchemaId}
    (h : q.Grounded slot)
    (hGrows : p.Grows q) :
    p.Grounded slot := by
  have hLift : ∀ a b, p.Links a b → q.Links a b :=
    fun _ _ hLinks => hLinks.mono hGrows
  exact fun source hPath hCircle =>
    h source (Relation.ReflTransGen.mono hLift _ _ hPath)
      (Relation.TransGen.mono hLift _ _ hCircle)

/- There is no circle if links lead down some ranks. -/
theorem acyclic_of_rank
    (rank : SchemaId → Nat)
    (h : ∀ slot < p.size, ∀ source ∈ (p.get slot).target,
      rank source < rank slot) :
    p.Acyclic := by
  have hDown :
      ∀ {a b}, Relation.TransGen p.Links a b → rank b < rank a := by
    have hStep : ∀ {a b}, p.Links a b → rank b < rank a := by
      intro a b hLinks
      by_cases hLt : a < p.size
      · exact h a hLt b hLinks.target
      · unfold Links at hLinks
        rw [get_of_le (Nat.le_of_not_lt hLt)] at hLinks
        exact absurd hLinks.target nofun
    intro a b hPath
    induction hPath with
    | single hLinks => exact hStep hLinks
    | tail _ hLinks ih => exact Nat.lt_trans (hStep hLinks) ih
  exact fun slot hCircle => Nat.lt_irrefl _ (hDown hCircle)

end SchemaPool

/- An alias that is settled is its source under another name. -/
theorem SlotShown.get_eq_of_alias
    {p : SchemaPool}
    {a b : SchemaId}
    (h : SlotShown p [] [] a)
    (hLinks : p.Links a b)
    (hAlias : (p.get a).aliasName.isSome = true) :
    p.get a =
      { p.get b with
        aliasName := (p.get a).aliasName
        flags := { (p.get b).flags with aliased := true }
        target := some b
        descriptor := (p.get a).descriptor } := by
  rcases h with hPlain | ⟨v, hv, -⟩ | ⟨v, rfl, -, -, -, hGet⟩
  · exact absurd hLinks (SchemaPool.not_links_of_isPlain hPlain)
  · cases hv
  · have hShows := v.shows_rebuilt p
    rw [← hGet] at hShows
    cases hLinks.unique hShows
    rw [hGet] at hAlias ⊢
    unfold View.rebuilt SchemaPool.view Schema.view at hAlias ⊢
    cases hKind : v.kind with
    | «alias» => rfl
    | reference =>
        rw [hKind] at hAlias
        cases hAlias

namespace View

variable {views : List View}
variable {p : SchemaPool}

/- Slots that are not noted stay. -/
theorem get_completeAll_of_ne
    {slot : SchemaId}
    (h : ∀ v ∈ views, v.slot ≠ slot) :
    (completeAll views p).get slot = p.get slot :=
  completeAll_keeps (P := fun q => q.get slot = p.get slot)
    (fun _ v hv hSame =>
      (SchemaPool.get_fill_of_ne (h v hv) _).trans hSame) rfl

/- What is true of rebuilt views stays true of noted views. -/
theorem completeAll_noted
    (h : Noting p [] views)
    {P : View → Schema → Prop}
    (hRebuilt : ∀ v q, P v (v.rebuilt q))
    (hBefore : ∀ v ∈ views, P v (p.get v.slot)) :
    ∀ v ∈ views, P v ((completeAll views p).get v.slot) := by
  let Kept : SchemaPool → Prop := fun q =>
    q.size = p.size ∧ ∀ v ∈ views, P v (q.get v.slot)
  suffices Kept (completeAll views p) from this.2
  refine completeAll_keeps (P := Kept) ?_ ⟨rfl, hBefore⟩
  rintro q w hw ⟨hSize, hNoted⟩
  refine ⟨(SchemaPool.size_fill _ _ _).trans hSize, fun v hv => ?_⟩
  by_cases hSame : w.slot = v.slot
  · cases eq_of_slot_eq h.nodup hw hv hSame
    rw [SchemaPool.get_fill_self (hSize ▸ h.slot_lt w hw)]
    exact hRebuilt w q
  · rw [SchemaPool.get_fill_of_ne hSame]
    exact hNoted v hv

/- Noted views show the same slots before and after. -/
theorem shows_completeAll
    (h : Noting p [] views) :
    ∀ v ∈ views, ((completeAll views p).get v.slot).Shows v.source :=
  completeAll_noted h (P := fun v s => s.Shows v.source)
    shows_rebuilt h.noted

/- Every slot is plain or shows a source afterwards. -/
theorem noting_completeAll
    (h : Noting p [] views) :
    Noting (completeAll views p) [] [] := by
  refine ⟨nofun, List.nodup_nil, nofun, nofun, nofun, nofun,
    List.nodup_nil, nofun, fun slot => ?_⟩
  by_cases hNoted : ∃ v ∈ views, v.slot = slot
  · rcases hNoted with ⟨v, hv, rfl⟩
    exact .inr ⟨_, shows_completeAll h v hv⟩
  · rw [get_completeAll_of_ne fun v hv hEq => hNoted ⟨v, hv, hEq⟩]
    exact h.shown slot

/-
  When all slots are filled, rebuilding the noted views
  settles every view that no circle is behind. The noted views
  show one another as they do afterwards.
-/
theorem slotShown_completeAll
    (hNoting : Noting p [] views)
    {slot : SchemaId}
    (h : SlotShown p [] views slot)
    (hGrounded : (completeAll views p).Grounded slot) :
    SlotShown (completeAll views p) [] [] slot := by
  have hLinks :
      ∀ v ∈ views, (completeAll views p).Links v.slot v.source :=
    shows_completeAll hNoting
  have hNoCircle :
      ∀ slot, (completeAll views p).Grounded slot →
        ¬ Relation.TransGen (Before views) slot slot := by
    intro slot hGrounded hCircle
    refine hGrounded slot .refl (hCircle.lift id ?_)
    rintro a b ⟨v, hv, rfl, rfl⟩
    exact hLinks v hv
  have hSettled :=
    get_completeAll hNoting.nodup (fun v hv => (hLinks v hv).grounded_iff)
      hNoCircle hNoting.slot_lt
  have hSize := size_completeAll views p
  by_cases hNoted : ∃ v ∈ views, v.slot = slot
  · rcases hNoted with ⟨v, hv, rfl⟩
    exact .inr (.inr ⟨v, rfl, nofun, nofun,
      hSize ▸ hNoting.source_lt v hv, hSettled v hv hGrounded⟩)
  · have hOff : ∀ v ∈ views, v.slot ≠ slot :=
      fun v hv hEq => hNoted ⟨v, hv, hEq⟩
    rcases h with hPlain | hView | ⟨v, rfl, -, hNot, hSet⟩
    · left
      rw [get_completeAll_of_ne hOff]
      exact hPlain
    · exact absurd hView hNoted
    · refine .inr (.inr ⟨v, rfl, nofun, nofun, hSize ▸ hSet.source_lt, ?_⟩)
      rw [get_completeAll_of_ne hOff, hSet.get_slot]
      exact (rebuilt_congr (get_completeAll_of_ne hNot)).symm

end View

namespace Registry

/-
  A registry that is used with one table: schemas of its
  descriptors are extracted, and others are shared.
-/
inductive BuiltWith
    (t : TypeTable) : Registry → Prop
| fresh (marker : Char) : BuiltWith t { marker }
| extract
    {r r' : Registry}
    {id : DescriptorId}
    {slot : SchemaId}
    (h : BuiltWith t r)
    (hExtracts : r.Extracts t id r' slot) :
    BuiltWith t r'
| primitive
    {r : Registry}
    (h : BuiltWith t r)
    (kind : Primitive) :
    BuiltWith t { r with pool := (r.pool.primitive kind).1 }
| sequenceOf
    {r : Registry}
    (h : BuiltWith t r)
    {element : SchemaId}
    (hElement : element < r.pool.size) :
    BuiltWith t { r with pool := (r.pool.sequenceOf element).1 }
| unknown
    {r : Registry}
    (h : BuiltWith t r) :
    BuiltWith t { r with pool := r.pool.unknown.1 }

variable {t : TypeTable}
variable {r : Registry}

theorem BuiltWith.bounded
    (h : r.BuiltWith t) :
    r.Bounded := by
  induction h with
  | fresh marker => exact bounded_fresh marker
  | extract _ hExtracts ih => exact hExtracts.bounded ih
  | primitive _ kind ih => exact ih.share _ rfl
  | sequenceOf _ hElement ih => exact ih.share _ rfl
  | unknown _ ih => exact ih.share _ rfl

/- Between extractions no view is noted. -/
theorem BuiltWith.noting
    (h : r.BuiltWith t) :
    Noting r.pool [] [] := by
  induction h with
  | fresh marker => exact .empty rfl
  | extract hBuilt hExtracts ih =>
      have hBounded := hBuilt.bounded
      rcases hExtracts.exists_runs hBounded with ⟨x, hRuns, -, rfl⟩
      have hNoting :=
        (hRuns.invariant
          (P := fun x => x.Bounded ∧
            Noting x.registry.pool x.pending x.views)
          (fun hMove h => ⟨hMove.bounded h.1, h.2.move hMove h.1⟩)
          ⟨⟨hBounded, nofun⟩, ih⟩).2
      rw [hRuns.grows.pending] at hNoting
      exact View.noting_completeAll hNoting
  | primitive _ kind ih => exact ih.share _ ⟨rfl, rfl, nofun⟩
  | sequenceOf _ hElement ih => exact ih.share _ ⟨rfl, rfl, nofun⟩
  | unknown _ ih => exact ih.share _ ⟨rfl, rfl, nofun⟩

/-
  Between extractions a slot that no circle is behind is plain
  or a settled view, whatever other slots there are.
-/
theorem BuiltWith.slotShown
    (h : r.BuiltWith t)
    {slot : SchemaId}
    (hGrounded : r.pool.Grounded slot) :
    SlotShown r.pool [] [] slot := by
  induction h with
  | fresh marker =>
      left
      rw [SchemaPool.get_of_le (Nat.zero_le slot)]
      exact Schema.isPlain_unknown ""
  | extract hBuilt hExtracts ih =>
      have hBounded := hBuilt.bounded
      have hBefore :=
        ih (hGrounded.of_grows (hExtracts.grows hBounded).pool)
      rcases hExtracts.exists_runs hBounded with ⟨x, hRuns, -, rfl⟩
      rcases hRuns.invariant
          (P := fun x => x.Bounded ∧
            Noting x.registry.pool x.pending x.views ∧
            SlotShown x.registry.pool x.pending x.views slot)
          (fun hMove h => ⟨hMove.bounded h.1, h.2.1.move hMove h.1,
            h.2.2.move hMove h.1 h.2.1⟩)
          ⟨⟨hBounded, nofun⟩, hBuilt.noting, hBefore⟩ with
        ⟨-, hNoting, hShown⟩
      rw [hRuns.grows.pending] at hNoting hShown
      exact View.slotShown_completeAll hNoting hShown hGrounded
  | primitive _ kind ih =>
      exact (ih (hGrounded.of_grows (SchemaPool.grows_share _ _ _))).share
        _ ⟨rfl, rfl, nofun⟩
  | sequenceOf _ hElement ih =>
      exact (ih (hGrounded.of_grows (SchemaPool.grows_share _ _ _))).share
        _ ⟨rfl, rfl, nofun⟩
  | unknown _ ih =>
      exact (ih (hGrounded.of_grows (SchemaPool.grows_share _ _ _))).share
        _ ⟨rfl, rfl, nofun⟩

/- All views are settled if there is no circle. -/
theorem BuiltWith.allSettled
    (h : r.BuiltWith t)
    (hAcyclic : r.pool.Acyclic) :
    r.pool.AllSettled :=
  ⟨h.noting, fun slot => h.slotShown (hAcyclic.grounded slot)⟩

/-
  In a registry whose aliases and references do not go round
  in a circle, a reference has the fields, branches,
  discriminator and ancestors of what it points to, and an
  alias differs from what it stands for only in its name, the
  mark that it is one, its target and its descriptor.
-/
theorem views_agree_with_targets
    (hBuilt : r.BuiltWith t)
    (hAcyclic : r.pool.Acyclic)
    (slot : SchemaId) :
    ((r.get slot).kind = .reference →
      ∃ source < r.pool.size,
        (r.get slot).target = some source ∧
        (r.get slot).fields = (r.get source).fields ∧
        (r.get slot).branches = (r.get source).branches ∧
        (r.get slot).discriminator = (r.get source).discriminator ∧
        (r.get slot).ancestors = (r.get source).ancestors) ∧
    ((r.get slot).aliasName.isSome = true →
      ∃ source < r.pool.size,
        (r.get slot).target = some source ∧
        r.get slot =
          { r.get source with
            aliasName := (r.get slot).aliasName
            flags := { (r.get source).flags with aliased := true }
            target := (r.get slot).target
            descriptor := (r.get slot).descriptor }) := by
  rcases (hBuilt.allSettled hAcyclic).slots slot with
    hPlain | ⟨v, hv, -⟩ | ⟨v, rfl, -, -, hLt, hGet⟩
  · refine ⟨fun hKind => absurd hKind hPlain.kind, fun hAlias => ?_⟩
    have hNone : (r.get slot).aliasName = none := hPlain.aliasName
    rw [hNone] at hAlias
    cases hAlias
  · cases hv
  · have hGet : r.get v.slot = v.rebuilt r.pool := hGet
    rw [hGet]
    cases hKind : v.kind with
    | «alias» =>
        simp only [View.rebuilt, SchemaPool.view, Schema.view, hKind]
        exact ⟨fun _ => ⟨v.source, hLt, rfl, rfl, rfl, rfl, rfl⟩,
          fun _ => ⟨v.source, hLt, rfl, rfl⟩⟩
    | reference =>
        simp only [View.rebuilt, SchemaPool.view, Schema.view, hKind]
        exact ⟨fun _ => ⟨v.source, hLt, rfl, rfl, rfl, rfl, rfl⟩, nofun⟩

/- A node with an alias of a reference to the next one. -/
def aliasedLinks : TypeTable :=
  { descriptors :=
      #[{ name := "Node",
          shape := .object { fields := [⟨"next", .described 1, false⟩] } },
        { name := "Link", shape := .alias (.described 2) },
        { name := "NodeRef", shape := .reference (.described 0) }] }

/- Both views are met while the node is not filled. -/
def aliasedLinksRegistry : Registry :=
  ((extract? {} aliasedLinks 4 0).map Prod.fst).getD {}

/- The alias, in slot 1, and the reference show the node. -/
theorem aliasedLinks_agree :
    aliasedLinksRegistry.BuiltWith aliasedLinks ∧
    aliasedLinksRegistry.pool.Acyclic ∧
    (aliasedLinksRegistry.get 1).aliasName = some "Link" ∧
    (aliasedLinksRegistry.get 1).fields.map Field.name = ["next"] ∧
    ∃ source < 3,
      (aliasedLinksRegistry.get 1).target = some source ∧
      (aliasedLinksRegistry.get 1).fields =
        (aliasedLinksRegistry.get source).fields := by
  have hExtracts :
      Extracts {} aliasedLinks 0 aliasedLinksRegistry 0 := ⟨4, rfl⟩
  have hBuilt : aliasedLinksRegistry.BuiltWith aliasedLinks :=
    .extract (.fresh 'k') hExtracts
  have hAcyclic : aliasedLinksRegistry.pool.Acyclic :=
    SchemaPool.acyclic_of_rank (fun slot => (3 - slot) % 3) (by decide)
  have hKind : (aliasedLinksRegistry.get 1).kind = .reference := by decide
  rcases (views_agree_with_targets hBuilt hAcyclic 1).1 hKind with
    ⟨source, hLt, hTarget, hFields, -⟩
  exact ⟨hBuilt, hAcyclic, by decide, by decide, source, hLt, hTarget,
    hFields⟩

end Registry

end MatchCompiler
