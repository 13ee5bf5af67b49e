import MatchCompiler.Proofs.DirectMatch
import MatchCompiler.Proofs.SameReading

/-
  This file compares a sequence that is too short for some
  slots with the sequence that has an element for each.

  A slot without an element takes its default. Defaults are
  checked as literals of the element type, so each of them
  denotes an element, and a short sequence can be completed
  by these. A default that denotes what the literal stands
  for by itself behaves like the element: the arm runs alike
  on the short sequence and on the completed one. Any other
  default is bound as something that is no element.

  Key definitions include:
    * `CheckedLiteral.denoted`
    * `SchemaPool.denoted?`
    * `Resolution.complete?`

  Key theorems include:
    * `SeqLayout.resolve_slotCount`
    * `Checked.readsAlike_completed`
    * `run_completed_eq`
-/

------------------------------------------------------------
-- Completed Sequences
------------------------------------------------------------

namespace MatchCompiler

/- The value of its type that a literal denotes. -/
def CheckedLiteral.denoted : CheckedLiteral → Value
| .value l => .ofLiteral l
| .member m => .member m.name m.ordinal
| .nil => .nil
| .none => .none

/- The value of a type that a literal denotes, if it does. -/
def SchemaPool.denoted?
    (p : SchemaPool)
    (marker : Char)
    (id : SchemaId)
    (l : Literal) : Option Value :=
  match p.checkLiteral marker id l with
  | .ok meaning => some meaning.denoted
  | .error _ => none

/- The element for a slot; a default is filled in. -/
def SlotSource.element?
    (fill : Literal → Option Value)
    (xs : List Value) : SlotSource → Option Value
| .element i => Value.itemAt? xs i
| .default l => fill l

/- One element for each slot of a resolution. -/
def Resolution.complete?
    (fill : Literal → Option Value)
    (xs : List Value)
    (r : Resolution) : Option (List Value) :=
  r.slots.mapM (SlotSource.element? fill xs)

variable {fill : Literal → Option Value}
variable {xs ws : List Value}

/- A slot reads its element, if defaults denote themselves. -/
theorem Value.readSlot_of_element?
    {source : SlotSource}
    {w : Value}
    (h : source.element? fill xs = Option.some w)
    (hFill :
      ∀ l, source = .default l → fill l = Option.some (ofLiteral l)) :
    (Value.seq xs).readSlot source = .ok w := by
  cases source with
  | element i =>
      have hItem : itemAt? xs i = Option.some w := h
      change (Value.seq xs).readItem i = .ok w
      rw [readItem_eq rfl, hItem]
  | default l =>
      cases (hFill l rfl).symm.trans h
      rfl

/- All slots together read the elements. -/
theorem Value.map_readSlot_of_forall₂
    {slots : List SlotSource}
    (h :
      List.Forall₂
        (fun source w => source.element? fill xs = Option.some w)
        slots ws)
    (hFill :
      ∀ l, .default l ∈ slots → fill l = Option.some (ofLiteral l)) :
    slots.map (Value.seq xs).readSlot = ws.map .ok := by
  induction h with
  | nil => rfl
  | cons hHead _ ih =>
      rw [List.map_cons, List.map_cons,
        readSlot_of_element? hHead fun l hl => hFill l (by simp [hl]),
        ih fun l hl => hFill l (List.mem_cons_of_mem _ hl)]

namespace SeqLayout

variable {l : SeqLayout}

/- With one element for each slot, each slot reads its own. -/
theorem resolve_slotCount
    (l : SeqLayout) :
    ∃ r, l.resolve l.slotCount = some r ∧
      r.slots =
        (List.range' 0 l.slotCount).map fun k =>
          .element (.fromStart k) := by
  have hAll : l.saturatedLength = l.slotCount :=
    l.required_add_defaulted
  cases hSpread : l.spreadAt with
  | none =>
      have hAccepts : l.accepts l.slotCount = true := by
        rw [← hAll]
        exact l.accepts_saturatedLength
      have hEnough :
          l.defaults.countP Option.isSome + 0 ≤
            l.slotCount - l.required := by
        rw [← l.required_add_defaulted, Nat.add_sub_cancel_left]
        exact Nat.le_refl _
      refine ⟨⟨assign (l.slotCount - l.required) 0 0 l.defaults, none⟩,
        ?_, assign_of_le hEnough 0⟩
      unfold resolve
      rw [hAccepts, hSpread]
      rfl
  | some place =>
      have hPlace : place ≤ l.slotCount := l.spread_le place hSpread
      refine ⟨_, resolve_of_saturated_le hSpread (Nat.le_of_eq hAll), ?_⟩
      rw [hAll, Nat.sub_self, Nat.add_zero, ← List.map_append]
      have hRange := @List.range'_append_1 0 place (l.slotCount - place)
      rw [Nat.zero_add, Nat.add_sub_cancel' hPlace] at hRange
      rw [hRange]

/- Up to the saturated length nothing is left for the spread. -/
theorem readSlice_of_le
    {r : Resolution}
    (hResolve : l.resolve xs.length = some r)
    (hLe : xs.length ≤ l.saturatedLength) :
    ∀ range ∈ r.spread,
      (Value.seq xs).readSlice range = .ok (.seq []) := by
  intro range hRange
  unfold resolve at hResolve
  split at hResolve
  · split at hResolve
    · cases hResolve
      cases hRange
    · cases hResolve
      cases hRange
      refine congrArg (fun items => Except.ok (Value.seq items)) ?_
      refine List.drop_eq_nil_of_le ?_
      rw [List.length_take]
      unfold saturatedLength at hLe
      dsimp only
      omega
  · cases hResolve

/- The elements of a sequence are what its places lead to. -/
theorem map_readSlot_range'
    {n : Nat}
    (h : ws.length = n) :
    ((List.range' 0 n).map fun k =>
        SlotSource.element (.fromStart k)).map (Value.seq ws).readSlot =
      ws.map .ok := by
  refine List.ext_getElem (by simp [h]) fun k hk hk' => ?_
  have hLt : k < ws.length := by simpa using hk'
  simp only [List.getElem_map, List.getElem_range', Nat.one_mul,
    Nat.zero_add, Value.readSlot]
  rw [Value.readItem_eq rfl]
  simp only [Value.itemAt?, List.getElem?_eq_getElem hLt]

end SeqLayout

end MatchCompiler

------------------------------------------------------------
-- Runs On Completed Sequences
------------------------------------------------------------

namespace MatchCompiler

/- What is read through related options is the same. -/
theorem eq_of_map_eq_map
    {α β γ : Type}
    {f : α → γ}
    {g : β → γ}
    {x : Option α}
    {y : Option β}
    (h : x.map f = y.map g)
    {z : γ}
    (hz : ∀ b ∈ y, g b = z)
    {a : α}
    (ha : a ∈ x) :
    f a = z := by
  cases ha
  cases y with
  | none => cases h
  | some b => exact (Option.some.inj h).trans (hz b rfl)

/- With one element for each slot, its access leads to it. -/
theorem SeqLayout.resolve_slotAccesses_full
    {l : SeqLayout}
    {ws : List Value}
    (h : ws.length = l.slotCount)
    (c : Choices) :
    (l.slotAccesses .scrutinee).map (Access.resolve (.seq ws) c) =
      ws.map .ok := by
  rcases l.resolve_slotCount with ⟨r, hResolve, hSlots⟩
  rw [← h] at hResolve
  have hRead : Access.scrutinee.resolve (.seq ws) c = .ok (.seq ws) := rfl
  rw [resolve_slotAccesses hRead rfl hResolve, hSlots,
    map_readSlot_range' h]

/-
  Where the slots of a short sequence read what the elements
  of another one are, the pattern cannot tell the two apart.
-/
theorem Checked.readsAlike_completed
    {l : SeqLayout}
    {xs ws : List Value}
    {r : Resolution}
    (hResolve : l.resolve xs.length = Option.some r)
    (hLe : xs.length ≤ l.saturatedLength)
    (hLength : ws.length = l.slotCount)
    (hReads : r.slots.map (Value.seq xs).readSlot = ws.map .ok)
    (span : Span)
    (items : List Checked)
    (spread : Option Checked)
    (o : LoweringOptions)
    (inside : Bool) :
    ((Checked.seq span l Option.none items spread).plan o inside
      .scrutinee).ReadsAlike (.seq xs) (.seq ws) := by
  rcases l.resolve_slotCount with ⟨r', hResolve', -⟩
  rw [← hLength] at hResolve'
  have hLe' : ws.length ≤ l.saturatedLength := by
    rw [hLength]
    exact Nat.le_of_eq l.required_add_defaulted.symm
  have hAccesses :
      Lowered.seqAccesses l .scrutinee Option.none =
        Option.some (l.lengthTest? .scrutinee, l.slotAccesses .scrutinee,
          l.spreadAccess? .scrutinee) := rfl
  have hOpen :
      ∀ m, ∀ n ∈ (Option.none : Option Nat), m = n := fun _ => nofun
  have hHere := fun c =>
    Lowered.reads_of_seqAccesses
      (rfl : Access.scrutinee.resolve (.seq xs) c = .ok (.seq xs))
      rfl hResolve (hOpen _) hAccesses
  have hThere := fun c =>
    Lowered.reads_of_seqAccesses
      (rfl : Access.scrutinee.resolve (.seq ws) c = .ok (.seq ws))
      rfl hResolve' (hOpen _) hAccesses
  have hSlots :
      ∀ a ∈ l.slotAccesses .scrutinee,
        a.ReadsAlike (.seq xs) (.seq ws) := by
    intro a ha c
    have hSame := (hHere c).2.1
    rw [hReads, ← SeqLayout.resolve_slotAccesses_full hLength c] at hSame
    exact List.map_inj_left.mp hSame a ha
  have hSpread :
      ∀ a ∈ l.spreadAccess? .scrutinee,
        a.ReadsAlike (.seq xs) (.seq ws) := by
    intro a ha c
    rw [eq_of_map_eq_map (hHere c).2.2
        (SeqLayout.readSlice_of_le hResolve hLe) ha,
      eq_of_map_eq_map (hThere c).2.2
        (SeqLayout.readSlice_of_le hResolve' hLe') ha]
  refine .all (List.forall_mem_append.mpr ⟨?_, ?_⟩)
  · refine List.forall_mem_map.mpr fun t ht => .test ?_
    have hTest := Option.mem_toList.mp ht
    rcases SeqLayout.exists_query_of_lengthTest? hTest with
      ⟨q, hQuery, hAlone⟩
    refine .leaf (Test.isLeaf_of_query hQuery)
      (Or.inr ⟨hAlone, fun c => ?_⟩)
    rw [(hHere c).1 t hTest, (hThere c).1 t hTest]
  · refine List.forall_mem_append.mpr ⟨?_, ?_⟩
    · exact looks_planSlots
        (fun p _ a ha => p.readsAlike_plan o inside ha) hSlots
    · exact looks_planSpread
        (fun p _ a ha => p.readsAlike_plan o inside ha) hSpread

end MatchCompiler

------------------------------------------------------------
-- Names Of Slots
------------------------------------------------------------

namespace MatchCompiler

/- A part of a conjunction binds its names in the whole. -/
theorem Plan.mem_bindings_all
    {o : LoweringOptions}
    {b : String × Access}
    {p : Plan}
    (h : ∀ n, b ∈ (p.lower o n).1.bindings)
    {ps : List Plan}
    (hp : p ∈ ps)
    (n : Nat) :
    b ∈ ((Plan.all ps).lower o n).1.bindings := by
  suffices hPart : ∃ l ∈ (lowerAll o ps n).1, b ∈ l.bindings by
    exact List.mem_flatMap.mpr hPart
  induction ps generalizing n with
  | nil => cases hp
  | cons q qs ih =>
      rcases List.mem_cons.mp hp with rfl | hp
      · exact ⟨_, List.mem_cons_self, h n⟩
      · rcases ih hp (q.lower o n).2 with ⟨l, hl, hb⟩
        exact ⟨l, List.mem_cons_of_mem _ hl, hb⟩

/- The name of a slot is bound to the access of the slot. -/
theorem CheckedArm.mem_bindings_of_slot
    {arm : CheckedArm}
    (hRegular : arm.pattern.Regular)
    {span s : Span}
    {l : SeqLayout}
    {items : List Checked}
    {spread : Option Checked}
    (hPattern : arm.pattern = .seq span l none items spread)
    {k : Nat}
    {x : String}
    {inner : Checked}
    (hItem : items[k]? = some (.bind s x inner))
    {a : Access}
    (hSlot : (l.slotAccesses .scrutinee)[k]? = some a)
    (o : LoweringOptions)
    (i : Nat) :
    (x, a) ∈ (arm.clause o i).bindings := by
  have hLower :
      ((arm.plan o).lower o 0).1.bindings =
        (arm.clause o i).bindings := by
    rw [lower_plan o hRegular i]
  rw [← hLower]
  refine Plan.mem_bindings_all (fun n => ?_) List.mem_cons_self 0
  rw [hPattern]
  have hPart :
      (Checked.bind s x inner).plan o false a ∈
        Checked.planSlots o false items (l.slotAccesses .scrutinee) := by
    rw [Checked.planSlots_eq]
    refine List.mem_flatMap.mpr ⟨(a, .bind s x inner), ?_, ?_⟩
    · refine List.mem_of_getElem? (i := k) ?_
      rw [List.getElem?_zip_eq_some]
      exact ⟨hSlot, hItem⟩
    · exact List.mem_singleton.mpr rfl
  exact Plan.mem_bindings_all (fun n => List.mem_cons_self)
    (List.mem_append_right _ (List.mem_append_left _ hPart)) n

/- The values of two matches that agree are read alike. -/
theorem AccessBindings.exists_of_values_eq
    {bindings : AccessBindings}
    {v w : Value}
    {c d : Choices}
    {env : ValueBindings}
    (hv : bindings.values v c = .ok env)
    (hw : bindings.values w d = .ok env)
    {b : String × Access}
    (hb : b ∈ bindings) :
    ∃ y, b.2.resolve v c = .ok y ∧ b.2.resolve w d = .ok y := by
  induction bindings generalizing env with
  | nil => cases hb
  | cons e es ih =>
      rcases e with ⟨x, a⟩
      unfold values at hv hw
      rw [List.mapM_cons] at hv hw
      rcases exists_of_bind_eq_ok hv with ⟨p, hHead, hv⟩
      rcases exists_of_bind_eq_ok hv with ⟨rest, hTail, hEq⟩
      rcases exists_of_bind_eq_ok hw with ⟨p', hHead', hw⟩
      rcases exists_of_bind_eq_ok hw with ⟨rest', hTail', hEq'⟩
      rcases exists_of_bind_eq_ok hHead with ⟨y, hy, hPair⟩
      rcases exists_of_bind_eq_ok hHead' with ⟨y', hy', hPair'⟩
      cases hPair
      cases hPair'
      cases hEq
      cases hEq'
      rcases List.mem_cons.mp hb with rfl | hb
      · exact ⟨y, hy, hy'⟩
      · exact ih hTail hTail' hb

/- A match gives the values of the names. -/
theorem Clause.exists_values_of_run
    {c : Clause}
    {σ : Type}
    {host : GuardHost σ}
    {root : Value}
    {s : σ}
    {env : ValueBindings}
    (h : (c.run host root s).1 = .ok (some env)) :
    ∃ d, c.bindings.values root d = .ok env := by
  unfold run at h
  split at h
  · cases h
  · cases h
  · rename_i d s' _
    dsimp only at h
    rcases hValues : c.bindings.values root d with cause | env'
    · rw [hValues] at h
      cases h
    · rw [hValues] at h
      cases h
      exact ⟨d, hValues⟩

end MatchCompiler

------------------------------------------------------------
-- Defaults
------------------------------------------------------------

namespace MatchCompiler

/- The defaults of a layout are those of the elements. -/
theorem SeqElement.exists_item_of_default
    {es : List (SeqElement Pattern)}
    {l : Literal}
    (h : some l ∈ (layout es).defaults) :
    ∃ p, .item p (some l) ∈ es := by
  rcases List.mem_filterMap.mp h with ⟨e, he, hEq⟩
  cases e with
  | item p d =>
      cases hEq
      exact ⟨p, he⟩
  | spread p s => cases hEq

/- There is an element for each slot of a length that can match. -/
theorem SeqLayout.exists_complete?
    {l : SeqLayout}
    {fill : Literal → Option Value}
    (hFill : ∀ k, some k ∈ l.defaults → ∃ w, fill k = some w)
    {xs : List Value}
    {r : Resolution}
    (hResolve : l.resolve xs.length = some r) :
    ∃ ws, r.complete? fill xs = some ws ∧
      List.Forall₂ (fun source w => source.element? fill xs = some w)
        r.slots ws := by
  have hEach : ∀ source ∈ r.slots, ∃ w, source.element? fill xs = some w := by
    intro source hSource
    cases source with
    | element i =>
        rcases lt_of_mem_resolve hResolve hSource with ⟨k, hk, rfl⟩
        exact ⟨xs[k], List.getElem?_eq_getElem hk⟩
    | default k => exact hFill k (mem_of_mem_resolve hResolve hSource)
  rcases exists_mapM_eq_pure hEach with ⟨ws, hws, hForall⟩
  exact ⟨ws, hws, hForall.imp fun _ _ h => h.2⟩

/-
  A sequence pattern that is accepted for sequences has items
  and a spread, and its defaults denote elements.
-/
theorem Registry.exists_seq_of_checkArm
    {r r' : Registry}
    {ctx : CheckContext}
    {id e : SchemaId}
    {span : Span}
    {es : List (SeqElement Pattern)}
    {arm : CheckedArm}
    (hCheck : r.checkArm ctx id (.seq span es) = (r', .ok arm))
    (hKind : (r.pool.get id).kind = .sequence)
    (hElement : (r.pool.get id).element = some e) :
    (∃ items spread,
      arm.pattern =
        .seq span (SeqElement.layout es) none items spread) ∧
    ∀ l, some l ∈ (SeqElement.layout es).defaults →
      ∃ w, r.pool.denoted? ctx.marker e l = some w := by
  have hRead : (r.pool.get id).structuralKind = .sequence := by
    unfold Schema.structuralKind
    rw [hKind]
    rfl
  have hOpen : (r.pool.get id).fixedLength? = none := by
    unfold Schema.fixedLength?
    rw [hRead]
    rfl
  have hAccepts := accepts_of_checkArm hCheck
  generalize arm.pattern = q at hAccepts
  cases hAccepts with
  | seq _ _ hOwn hDefaults =>
      cases hElement.symm.trans hOwn
      refine ⟨⟨_, _, congrArg (fun n => Checked.seq _ _ n _ _) hOpen⟩,
        fun l hl => ?_⟩
      rcases SeqElement.exists_item_of_default hl with ⟨p, hItem⟩
      rcases hDefaults p l hItem with ⟨meaning, hMeaning⟩
      have hDenoted :
          r.pool.checkLiteral ctx.marker e l = .ok meaning := hMeaning
      refine ⟨meaning.denoted, ?_⟩
      unfold SchemaPool.denoted?
      rw [hDenoted]
  | tuple hOther => cases hRead.symm.trans hOther

/-
  Matches on a short sequence and on one with an element for
  each slot agree on a name only if the default that the name
  is bound to is the element.
-/
theorem CheckedArm.eq_ofLiteral_of_runs
    {arm : CheckedArm}
    (hRegular : arm.pattern.Regular)
    {span s : Span}
    {l : SeqLayout}
    {items : List Checked}
    {spread : Option Checked}
    (hPattern : arm.pattern = .seq span l none items spread)
    {xs ws : List Value}
    {r : Resolution}
    (hResolve : l.resolve xs.length = some r)
    (hLength : ws.length = l.slotCount)
    {o : LoweringOptions}
    {i : Nat}
    {σ : Type}
    {host : GuardHost σ}
    {state : σ}
    {env : ValueBindings}
    (hHere :
      ((arm.clause o i).run host (.seq xs) state).1 = .ok (some env))
    (hThere :
      ((arm.clause o i).run host (.seq ws) state).1 = .ok (some env))
    {k : Nat}
    {x : String}
    {inner : Checked}
    (hItem : items[k]? = some (.bind s x inner))
    {value : Literal}
    (hSource : r.slots[k]? = some (.default value)) :
    ws[k]? = some (.ofLiteral value) := by
  have hReads := fun c =>
    SeqLayout.resolve_slotAccesses
      (rfl : Access.scrutinee.resolve (.seq xs) c = .ok (.seq xs))
      rfl hResolve
  rcases Clause.exists_values_of_run hHere with ⟨c, hValues⟩
  rcases Clause.exists_values_of_run hThere with ⟨d, hValues'⟩
  have hAt := congrArg (fun reads => reads[k]?) (hReads c)
  have hAt' := congrArg (fun reads => reads[k]?)
    (SeqLayout.resolve_slotAccesses_full hLength d)
  simp only [List.getElem?_map, hSource, Option.map_some] at hAt hAt'
  rcases hSlot : (l.slotAccesses .scrutinee)[k]? with _ | a
  · rw [hSlot] at hAt
    cases hAt
  · rw [hSlot] at hAt hAt'
    have hBound := mem_bindings_of_slot hRegular hPattern hItem hSlot o i
    rcases AccessBindings.exists_of_values_eq hValues hValues' hBound
      with ⟨y, hy, hy'⟩
    have hDefault : y = .ofLiteral value := by
      have hEq := (Option.some.inj hAt).symm.trans hy
      exact (Except.ok.inj hEq).symm
    rcases hElement : ws[k]? with _ | w
    · rw [hElement] at hAt'
      cases hAt'
    · rw [hElement] at hAt'
      have hEq := (Option.some.inj hAt').symm.trans hy'
      rw [← hDefault]
      exact congrArg some (Except.ok.inj hEq)

/-
  A sequence pattern is checked against sequences of a type,
  and a sequence is too short for some slots but can match.
  Completed by what the defaults denote it has one element
  for each slot. The arm runs alike on both sequences if each
  default that is used denotes what its literal stands for by
  itself; and a name that is bound to such a default tells a
  match of the one from a match of the other otherwise.
-/
theorem run_completed_eq
    {r r' : Registry}
    {ctx : CheckContext}
    {id e : SchemaId}
    {span : Span}
    {es : List (SeqElement Pattern)}
    {arm : CheckedArm}
    (hCheck : r.checkArm ctx id (.seq span es) = (r', .ok arm))
    (hKind : (r.pool.get id).kind = .sequence)
    (hElement : (r.pool.get id).element = some e)
    {xs : List Value}
    {res : Resolution}
    (hResolve : (SeqElement.layout es).resolve xs.length = some res)
    (hShort : xs.length < (SeqElement.layout es).saturatedLength) :
    ∃ ws items spread,
      arm.pattern =
        .seq span (SeqElement.layout es) none items spread ∧
      res.complete? (r.pool.denoted? ctx.marker e) xs = some ws ∧
      ws.length = (SeqElement.layout es).slotCount ∧
      ((∀ l, .default l ∈ res.slots →
          r.pool.denoted? ctx.marker e l = some (.ofLiteral l)) →
        ∀ o i (σ : Type) (host : GuardHost σ) s,
          (arm.clause o i).run host (.seq xs) s =
            (arm.clause o i).run host (.seq ws) s) ∧
      ∀ o i (σ : Type) (host : GuardHost σ) s env,
        ((arm.clause o i).run host (.seq xs) s).1 = .ok (some env) →
        ((arm.clause o i).run host (.seq ws) s).1 = .ok (some env) →
        ∀ (k : Nat) place x inner l,
          items[k]? = some (.bind place x inner) →
          res.slots[k]? = some (.default l) →
          r.pool.denoted? ctx.marker e l = some (.ofLiteral l) := by
  have hRegular : arm.pattern.Regular :=
    CheckedArm.AcceptedFrom.regular ⟨r, ctx, id, by rw [hCheck]⟩
  rcases Registry.exists_seq_of_checkArm hCheck hKind hElement with
    ⟨⟨items, spread, hPattern⟩, hDenoted⟩
  rcases SeqLayout.exists_complete? hDenoted hResolve with
    ⟨ws, hws, hEach⟩
  have hLength : ws.length = (SeqElement.layout es).slotCount := by
    rw [← hEach.length_eq]
    exact SeqLayout.length_slots_of_resolve hResolve
  refine ⟨ws, items, spread, hPattern, hws, hLength, ?_, ?_⟩
  · intro hKeep o i σ host s
    have hReads := Value.map_readSlot_of_forall₂ hEach hKeep
    refine CheckedArm.run_clause_eq hRegular ?_ i host s
    rw [hPattern]
    exact Checked.readsAlike_completed hResolve (Nat.le_of_lt hShort)
      hLength hReads span items spread o false
  · intro o i σ host s env hHere hThere k place x inner l hItem hSource
    have hElement := CheckedArm.eq_ofLiteral_of_runs hRegular hPattern
      hResolve hLength hHere hThere hItem hSource
    rcases List.getElem?_eq_some_iff.mp hSource with ⟨hk, hAt⟩
    rcases List.getElem?_eq_some_iff.mp hElement with ⟨hk', hAt'⟩
    have hFilled := hEach.get hk hk'
    rw [List.get_eq_getElem, List.get_eq_getElem] at hFilled
    dsimp only at hFilled
    rw [hAt, hAt'] at hFilled
    exact hFilled

/- The integers and the sequences of them. -/
def numberSchemas : Registry :=
  { pool :=
      { schemas :=
          #[{ kind := .primitive, name := "i64",
              primitive := some .i64 },
            { kind := .sequence, name := "Numbers",
              element := some 0 }] } }

/- Two names, of which the first has a default. -/
def namedNumbers : Pattern :=
  .seq {}
    [.item (.bind {} "x") (some (.int 3 none)), .item (.bind {} "y") none]

/- What checking makes of it. -/
def namedNumbersArm : CheckedArm :=
  { pattern :=
      .seq {} (.ofSlots [some (.int 3 none), none] none) none
        [.bind {} "x" (.wildcard {}), .bind {} "y" (.wildcard {})] none
    bindings := [⟨"x", 0, {}⟩, ⟨"y", 0, {}⟩] }

/- One number is completed by the default. -/
theorem namedNumbersArm_completed :
    numberSchemas.checkArm { table := {}, marker := 'k' } 1
      namedNumbers = (numberSchemas, .ok namedNumbersArm) ∧
    (namedNumbersArm.clause {} 0).run (fun _ _ => pure true)
      (.seq [.int 5]) () =
      (namedNumbersArm.clause {} 0).run (fun _ _ => pure true)
        (.seq [.int 3, .int 5]) () := by
  have hCheck :
      numberSchemas.checkArm { table := {}, marker := 'k' } 1
        namedNumbers = (numberSchemas, .ok namedNumbersArm) := rfl
  have hResolve :
      (SeqElement.layout
          [.item (.bind {} "x") (some (.int 3 none)),
            .item (Pattern.bind {} "y") none]).resolve
        [Value.int 5].length =
        some ⟨[.default (.int 3 none), .element (.fromStart 0)], none⟩ :=
    rfl
  rcases run_completed_eq hCheck rfl rfl hResolve (by decide) with
    ⟨ws, items, spread, -, hws, -, hSame, -⟩
  cases hws
  refine ⟨hCheck, hSame (fun l hl => ?_) {} 0 Unit _ ()⟩
  cases hl with
  | head => rfl
  | tail _ hl =>
      cases List.mem_singleton.mp hl

/- An enumeration and the sequences of its members. -/
def colorSchemas : Registry :=
  { pool :=
      { schemas :=
          #[{ kind := .enumeration, name := "Color",
              members := [⟨"Red", 0⟩, ⟨"Green", 1⟩] },
            { kind := .sequence, name := "Colors",
              element := some 0 }] } }

/- A sequence whose one element is red, also by default. -/
def redByDefault : Pattern :=
  .seq {} [.item (.literal {} (.sym "Red")) (some (.sym "Red"))]

/- What checking makes of it. -/
def redByDefaultArm : CheckedArm :=
  { pattern :=
      .seq {} (.ofSlots [some (.sym "Red")] none) none
        [.literal {} (.member ⟨"Red", 0⟩)] none
    bindings := [] }

/- The default is no element: the test of the tag faults on it. -/
theorem redByDefaultArm_faults :
    colorSchemas.checkArm { table := {}, marker := 'k' } 1
      redByDefault = (colorSchemas, .ok redByDefaultArm) ∧
    colorSchemas.pool.denoted? 'k' 0 (.sym "Red") =
      some (.member "Red" 0) ∧
    (∃ cause,
      ((redByDefaultArm.clause {} 0).run (fun _ _ => pure true)
        (.seq []) ()).1 = .error cause) ∧
    ((redByDefaultArm.clause {} 0).run (fun _ _ => pure true)
      (.seq [.member "Red" 0]) ()).1 = .ok (some []) :=
  ⟨rfl, rfl, ⟨_, rfl⟩, rfl⟩

end MatchCompiler
