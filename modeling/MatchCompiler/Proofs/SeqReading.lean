import MatchCompiler.Proofs.Equality
import MatchCompiler.Proofs.Paths
import MatchCompiler.Proofs.Plan

/-
  This file shows what the accesses of a sequence pattern
  read.

  For every length that can match, the access of a slot leads
  to what the resolution of that length says, and so does the
  access of the spread. The elements that a resolution names
  are there.

  Key definitions include:
    * `Value.readSlot`

  Key theorems include:
    * `SeqLayout.lt_of_mem_resolve`
    * `SeqLayout.resolve_slotAccesses`
    * `SeqLayout.resolve_spreadAccess?`
    * `Lowered.reads_of_seqAccesses`
    * `Lowered.refused_of_seqAccesses`
-/

------------------------------------------------------------
-- Elements That Are Handed Out
------------------------------------------------------------

namespace MatchCompiler

namespace SeqLayout

/-
  Number of elements handed out: one for each slot without a
  default, and one for as many others as `extra` allows.
-/
theorem countP_assign
    (extra beyond next : Nat)
    (ds : List (Option Literal)) :
    (assign extra beyond next ds).countP SlotSource.isElement =
      ds.countP Option.isNone +
        min (ds.countP Option.isSome) (extra - beyond) := by
  induction ds generalizing next with
  | nil => simp [assign]
  | cons d ds ih =>
      cases d with
      | none =>
          simp only [assign, List.countP_cons, ih, Option.isNone_none,
            Option.isSome_none, SlotSource.isElement, if_true,
            Bool.false_eq_true, if_false]
          omega
      | some value =>
          unfold assign
          split
          · simp only [List.countP_cons, ih, Option.isNone_some,
              Option.isSome_some, SlotSource.isElement, if_true,
              Bool.false_eq_true, if_false]
            omega
          · simp only [List.countP_cons, ih, Option.isNone_some,
              Option.isSome_some, SlotSource.isElement, if_true,
              Bool.false_eq_true, if_false]
            omega

/- Elements are handed out in order without gaps. -/
theorem lt_of_mem_assign
    {extra beyond next : Nat}
    {ds : List (Option Literal)}
    {i : ElementIndex}
    (h : .element i ∈ assign extra beyond next ds) :
    ∃ k, i = .fromStart k ∧
      k < next +
        (assign extra beyond next ds).countP SlotSource.isElement := by
  induction ds generalizing next with
  | nil => cases h
  | cons d ds ih =>
      have hElement :
          ∀ rest, .element i ∈
            SlotSource.element (.fromStart next) :: rest →
            rest = assign extra beyond (next + 1) ds →
            ∃ k, i = .fromStart k ∧
              k < next +
                (SlotSource.element (.fromStart next) ::
                  rest).countP SlotSource.isElement := by
        rintro rest hMem rfl
        have hCount :
            (SlotSource.element (.fromStart next) ::
              assign extra beyond (next + 1) ds).countP
                SlotSource.isElement =
              (assign extra beyond (next + 1) ds).countP
                SlotSource.isElement + 1 :=
          List.countP_cons_of_pos rfl
        rw [hCount]
        rcases List.mem_cons.mp hMem with hEq | hRest
        · cases hEq
          exact ⟨next, rfl, by omega⟩
        · rcases ih hRest with ⟨k, hk, hLt⟩
          exact ⟨k, hk, by omega⟩
      cases d with
      | none => exact hElement _ h rfl
      | some value =>
          unfold assign at h ⊢
          split at h
          · rename_i hExtra
            rw [if_pos hExtra]
            exact hElement _ h rfl
          · rename_i hExtra
            rw [if_neg hExtra]
            rcases List.mem_cons.mp h with hEq | hRest
            · cases hEq
            · rcases ih hRest with ⟨k, hk, hLt⟩
              refine ⟨k, hk, ?_⟩
              rw [List.countP_cons_of_neg (by simp [SlotSource.isElement])]
              exact hLt

/- The elements that a resolution names are there. -/
theorem lt_of_mem_resolve
    {l : SeqLayout}
    {n : Nat}
    {r : Resolution}
    (hResolve : l.resolve n = some r)
    {i : ElementIndex}
    (h : .element i ∈ r.slots) :
    ∃ k < n, i = .fromStart k := by
  unfold resolve at hResolve
  split at hResolve
  · rename_i hAccepts
    have hLeast : l.required ≤ n := by
      unfold accepts minLength at hAccepts
      simp only [Bool.and_eq_true, decide_eq_true_eq] at hAccepts
      exact hAccepts.1
    split at hResolve
    · rename_i hSpread
      cases hResolve
      rcases lt_of_mem_assign h with ⟨k, rfl, hLt⟩
      refine ⟨k, ?_, rfl⟩
      rw [countP_assign] at hLt
      unfold required at hLeast
      simp only [required] at hLt
      omega
    · rename_i place hSpread
      cases hResolve
      have hNone : l.required =
          (l.defaults.take place).countP Option.isNone +
            (l.defaults.drop place).countP Option.isNone := by
        rw [← List.countP_append, List.take_append_drop]
        rfl
      have hSome : l.defaulted =
          (l.defaults.take place).countP Option.isSome +
            (l.defaults.drop place).countP Option.isSome := by
        rw [← List.countP_append, List.take_append_drop]
        rfl
      rcases List.mem_append.mp h with hFront | hBack
      · rcases lt_of_mem_assign hFront with ⟨k, rfl, hLt⟩
        rw [countP_assign] at hLt
        exact ⟨k, by omega, rfl⟩
      · rcases lt_of_mem_assign hBack with ⟨k, rfl, hLt⟩
        rw [countP_assign, countP_assign] at hLt
        exact ⟨k, by omega, rfl⟩
  · cases hResolve

/- Defaults that are used are given. -/
theorem mem_of_mem_assign
    {extra beyond next : Nat}
    {ds : List (Option Literal)}
    {value : Literal}
    (h : .default value ∈ assign extra beyond next ds) :
    some value ∈ ds := by
  induction ds generalizing next with
  | nil => cases h
  | cons d ds ih =>
      cases d with
      | none =>
          rcases List.mem_cons.mp h with hEq | hRest
          · cases hEq
          · exact List.mem_cons_of_mem _ (ih hRest)
      | some own =>
          rw [assign] at h
          split at h
          · rcases List.mem_cons.mp h with hEq | hRest
            · cases hEq
            · exact List.mem_cons_of_mem _ (ih hRest)
          · rcases List.mem_cons.mp h with hEq | hRest
            · cases hEq
              exact List.mem_cons_self
            · exact List.mem_cons_of_mem _ (ih hRest)

theorem mem_of_mem_resolve
    {l : SeqLayout}
    {n : Nat}
    {r : Resolution}
    (hResolve : l.resolve n = some r)
    {value : Literal}
    (h : .default value ∈ r.slots) :
    some value ∈ l.defaults := by
  unfold resolve at hResolve
  split at hResolve
  · split at hResolve
    · cases hResolve
      exact mem_of_mem_assign h
    · cases hResolve
      rcases List.mem_append.mp h with hFront | hBack
      · exact List.mem_of_mem_take (mem_of_mem_assign hFront)
      · exact List.mem_of_mem_drop (mem_of_mem_assign hBack)
  · cases hResolve

end SeqLayout

end MatchCompiler

------------------------------------------------------------
-- Saturated Lengths
------------------------------------------------------------

namespace MatchCompiler

namespace Value

/- What a slot reads. -/
def readSlot
    (v : Value) : SlotSource → Except ShapeMismatch Value
| .element i => v.readItem i
| .default l => .ok (.ofLiteral l)

/- An item of a value that is read by position. -/
theorem readItem_eq
    {v : Value}
    {items : List Value}
    (h : v.items? = Option.some items)
    (i : ElementIndex) :
    v.readItem i =
      match itemAt? items i with
      | Option.some w => .ok w
      | Option.none => .error .outOfBounds := by
  unfold readItem readItems
  rw [h]
  rfl

theorem readLength_eq
    {v : Value}
    {items : List Value}
    (h : v.items? = Option.some items) :
    v.readLength = .ok items.length := by
  simp only [readLength, length?, h, Option.map_some]

theorem exists_items_of_readLength
    {v : Value}
    {n : Nat}
    (h : v.readLength = .ok n) :
    ∃ items, v.items? = Option.some items ∧ items.length = n := by
  unfold readLength length? at h
  rcases hItems : v.items? with _ | items
  · rw [hItems] at h
    cases h
  · rw [hItems] at h
    cases h
    exact ⟨items, rfl, rfl⟩

/- Counting from the end reads what counting from the start does. -/
theorem readItem_fromEnd
    {v : Value}
    {items : List Value}
    (h : v.items? = Option.some items)
    {i : Nat}
    (hLe : i ≤ items.length) :
    v.readItem (.fromEnd i) =
      v.readItem (.fromStart (items.length - i)) := by
  rw [readItem_eq h, readItem_eq h]
  simp only [itemAt?, if_pos hLe]

end Value

namespace SeqLayout

/- With enough elements every slot reads the next one. -/
theorem assign_of_le
    {extra beyond : Nat}
    {ds : List (Option Literal)}
    (h : ds.countP Option.isSome + beyond ≤ extra)
    (next : Nat) :
    assign extra beyond next ds =
      (List.range' next ds.length).map fun k =>
        .element (.fromStart k) := by
  induction ds generalizing next with
  | nil => rfl
  | cons d ds ih =>
      cases d with
      | none =>
          have hTail : ds.countP Option.isSome + beyond ≤ extra := by
            simpa using h
          simp only [assign, List.length_cons, List.range'_succ,
            List.map_cons, ih hTail]
      | some value =>
          have hCount :
              (some value :: ds).countP Option.isSome =
                ds.countP Option.isSome + 1 :=
            List.countP_cons_of_pos rfl
          have hExtra : ds.countP Option.isSome + beyond < extra := by
            omega
          simp only [assign, if_pos hExtra, List.length_cons,
            List.range'_succ, List.map_cons, ih (Nat.le_of_lt hExtra)]

/-
  From the saturated length on, the slots in front of a
  spread count from the start and all others from the end.
-/
theorem resolve_of_saturated_le
    {l : SeqLayout}
    {place n : Nat}
    (hSpread : l.spreadAt = some place)
    (h : l.saturatedLength ≤ n) :
    l.resolve n =
      some
        { slots :=
            ((List.range' 0 place).map fun k =>
                .element (.fromStart k)) ++
              (List.range' (place + (n - l.saturatedLength))
                (l.slotCount - place)).map fun k =>
                  .element (.fromStart k)
          spread := some ⟨place, l.saturatedLength - place⟩ } := by
  have hPlace : place ≤ l.defaults.length := l.spread_le place hSpread
  have hAll := l.required_add_defaulted
  have hDefaulted : l.defaulted =
      (l.defaults.take place).countP Option.isSome +
        (l.defaults.drop place).countP Option.isSome := by
    rw [← List.countP_append, List.take_append_drop]
    rfl
  have hAccepts : l.accepts n = true := by
    unfold saturatedLength at h
    unfold accepts minLength maxLength
    rw [hSpread]
    simp only [Option.map_none, Option.getD_none, Bool.and_true,
      decide_eq_true_eq]
    omega
  unfold saturatedLength at h
  have hFrontExtra :
      (l.defaults.take place).countP Option.isSome +
        (l.defaults.drop place).countP Option.isSome ≤
          n - l.required := by
    omega
  have hBackExtra :
      (l.defaults.drop place).countP Option.isSome + 0 ≤
        n - l.required := by
    omega
  have hFront := assign_of_le hFrontExtra 0
  have hBack := assign_of_le hBackExtra
  have hCount :
      ((List.range' 0 place).map fun k =>
        SlotSource.element (.fromStart k)).countP
          SlotSource.isElement = place := by
    have hEach :
        ∀ source ∈ (List.range' 0 place).map fun k =>
          SlotSource.element (.fromStart k),
          source.isElement = true := by
      intro source hSource
      rcases List.mem_map.mp hSource with ⟨k, -, rfl⟩
      rfl
    rw [List.countP_eq_length.mpr hEach, List.length_map,
      List.length_range']
  rw [List.length_take, Nat.min_eq_left hPlace] at hFront
  unfold resolve
  simp only [hAccepts, if_true, hSpread, hFront, hBack, hCount,
    List.length_drop, slotCount, saturatedLength]
  congr 3
  · congr 2
    omega
  · congr 1
    omega

/-
  For a length from the saturated one on, the one resolution
  for all of them reads what that of the length reads.
-/
theorem resolveSaturated_reads
    {l : SeqLayout}
    {v : Value}
    {items : List Value}
    (hItems : v.items? = some items)
    {r : Resolution}
    (hResolve : l.resolve items.length = some r)
    (h : l.saturatedLength ≤ items.length) :
    l.resolveSaturated.slots.map v.readSlot = r.slots.map v.readSlot ∧
    l.resolveSaturated.spread = r.spread := by
  cases hSpread : l.spreadAt with
  | none =>
      -- Without a spread the saturated length is the greatest.
      have hAccepts : l.accepts items.length = true := by
        rw [← l.isSome_resolve, hResolve]
        rfl
      have hEq : items.length = l.saturatedLength := by
        unfold accepts maxLength at hAccepts
        rw [hSpread] at hAccepts
        simp only [Option.map_some, Option.getD_some,
          Bool.and_eq_true, decide_eq_true_eq] at hAccepts
        unfold saturatedLength at h ⊢
        omega
      rw [hEq] at hResolve
      simp only [resolveSaturated, hResolve, hSpread, and_self]
  | some place =>
      have hPlace : place ≤ l.slotCount := l.spread_le place hSpread
      have hAll := l.required_add_defaulted
      rw [resolve_of_saturated_le hSpread h] at hResolve
      cases hResolve
      have hSat := resolve_of_saturated_le hSpread
        (Nat.le_refl l.saturatedLength)
      rw [Nat.sub_self, Nat.add_zero] at hSat
      have hLeft :
          ((List.range' 0 place).map fun k =>
            SlotSource.element (.fromStart k)).length = place := by
        rw [List.length_map, List.length_range']
      have hForm :
          l.resolveSaturated =
            { slots :=
                ((List.range' 0 place).map fun k =>
                    .element (.fromStart k)) ++
                  ((List.range' place (l.slotCount - place)).map
                    fun k => .element (.fromStart k)).map
                      (SlotSource.fromEnd l.saturatedLength)
              spread := some ⟨place, l.saturatedLength - place⟩ } := by
        simp only [resolveSaturated, hSat, hSpread]
        rw [List.take_left' hLeft, List.drop_left' hLeft]
      rw [hForm]
      refine ⟨?_, rfl⟩
      rw [List.map_append, List.map_append]
      congr 1
      rw [List.map_map, List.map_map, List.map_map,
        Nat.add_comm place, ← List.map_add_range', List.map_map]
      refine List.map_congr_left fun k hk => ?_
      have hk' := List.mem_range'_1.mp hk
      unfold saturatedLength at h ⊢
      simp only [Function.comp, SlotSource.fromEnd, Value.readSlot]
      rw [Value.readItem_fromEnd hItems (by omega)]
      congr 2
      omega

end SeqLayout

end MatchCompiler

------------------------------------------------------------
-- Accesses Of Slots And Spread
------------------------------------------------------------

namespace MatchCompiler

namespace Access

variable {root : Value}
variable {c : Choices}
variable {a : Access}
variable {v : Value}

/- The access of a slot leads to what the slot reads. -/
theorem resolve_slot
    (h : a.resolve root c = .ok v)
    (source : SlotSource) :
    (a.slot source).resolve root c = v.readSlot source := by
  cases source with
  | element i =>
      simp only [slot, resolve, h]
      rfl
  | default l => rfl

theorem resolve_slice
    (h : a.resolve root c = .ok v)
    (range : SpreadRange) :
    (Access.slice a range).resolve root c = v.readSlice range := by
  simp only [resolve, h]
  rfl

/- An access by length follows the case of the length. -/
theorem resolve_ofCases
    (h : a.resolve root c = .ok v)
    {n : Nat}
    (hLength : v.readLength = .ok n)
    (cases : List (Nat × Access))
    (otherwise : Access) :
    (ofCases a cases otherwise).resolve root c =
      (resolveCase root c n cases).getD
        (otherwise.resolve root c) := by
  unfold ofCases
  split
  · rename_i hEmpty
    rw [List.isEmpty_iff.mp hEmpty]
    rfl
  · simp only [resolve, h]
    change (v.readLength >>= _) = _
    rw [hLength]
    dsimp only [bind, Except.bind]
    cases resolveCase root c n cases <;> rfl

/- Cases that are made for some lengths. -/
theorem resolveCase_filterMap
    (f : Nat → Option Access)
    (n : Nat)
    (ns : List Nat) :
    resolveCase root c n
        (ns.filterMap fun k => (f k).map fun b => (k, b)) =
      if n ∈ ns then (f n).map (resolve root c) else none := by
  induction ns with
  | nil => rfl
  | cons k ns ih =>
      rw [List.filterMap_cons]
      by_cases hEq : k = n
      · subst hEq
        cases hf : f k with
        | none => simp [ih, hf]
        | some b => simp [resolveCase]
      · have hNe : ¬ n = k := fun h => hEq h.symm
        cases hf : f k with
        | none => simp [ih, hNe]
        | some b => simp [resolveCase, ih, hEq, hNe]

/-
  An access that is the same at a length reads the same from
  sequences of that length.
-/
theorem resolve_of_atLength
    (h : a.resolve root c = .ok v)
    {items : List Value}
    (hItems : v.items? = some items)
    {source : SlotSource}
    {b : Access}
    (hSame : atLength a items.length (a.slot source) = some b) :
    b.resolve root c = v.readSlot source := by
  rcases source with (i | i) | l
  · cases hSame
    exact resolve_slot h (.element (.fromStart i))
  · simp only [slot, atLength, a.beq_self, if_true] at hSame
    split at hSame
    · rename_i hLe
      cases hSame
      have hRead := resolve_slot h
        (.element (.fromStart (items.length - i)))
      exact hRead.trans (Value.readItem_fromEnd hItems hLe).symm
    · cases hSame
  · cases hSame
    exact resolve_slot h (.default l)

end Access

namespace SeqLayout

variable {l : SeqLayout}
variable {root : Value}
variable {c : Choices}
variable {a : Access}
variable {v : Value}
variable {items : List Value}
variable {r : Resolution}

/- The lengths that have a resolution of their own. -/
def shortLengths (l : SeqLayout) : List Nat :=
  List.range' l.minLength (l.saturatedLength - l.minLength)

/- A length that can match is short or saturated. -/
theorem mem_shortLengths
    {n : Nat}
    (h : l.accepts n = true) :
    n ∈ l.shortLengths ↔ n < l.saturatedLength := by
  unfold accepts at h
  simp only [Bool.and_eq_true, decide_eq_true_eq] at h
  unfold shortLengths
  rw [List.mem_range'_1]
  omega

theorem accepts_of_resolve
    {n : Nat}
    (h : l.resolve n = some r) :
    l.accepts n = true := by
  rw [← l.isSome_resolve, h]
  rfl

/- What is made for the short resolutions by length. -/
theorem filterMap_shortResolutions
    (l : SeqLayout)
    (g : Nat → Resolution → Option Access) :
    (l.shortResolutions.filterMap fun e =>
        (g e.1 e.2).map fun b => (e.1, b)) =
      l.shortLengths.filterMap fun k =>
        ((l.resolve k).bind (g k)).map fun b => (k, b) := by
  unfold shortResolutions shortLengths
  rw [List.filterMap_filterMap]
  congr 1
  funext k
  cases l.resolve k <;> rfl

/-
  The case of a length in the access of a slot, if it differs
  from the access for saturated lengths.
-/
def slotCase
    (a : Access)
    (slot : Nat)
    (source : SlotSource)
    (n : Nat)
    (r : Resolution) : Option Access :=
  (r.slots[slot]?).bind fun s =>
    if Access.atLength a n (a.slot source) == some (a.slot s) then
      none
    else
      some (a.slot s)

theorem slotAccess_eq
    (l : SeqLayout)
    (a : Access)
    (slot : Nat)
    (source : SlotSource) :
    l.slotAccess a slot source =
      .ofCases a
        (l.shortLengths.filterMap fun k =>
          ((l.resolve k).bind (slotCase a slot source k)).map
            fun b => (k, b))
        (a.slot source) := by
  rw [← filterMap_shortResolutions]
  unfold slotAccess slotCase
  refine congrArg (Access.ofCases a · (a.slot source)) ?_
  congr 1
  funext ⟨n, r⟩
  change (r.slots[slot]?).bind _ = _
  rcases r.slots[slot]? with _ | s
  · rfl
  · simp only [Option.bind_some]
    split <;> rfl

/- The case of a length in the access of the spread. -/
def spreadCase
    (a : Access)
    (range : SpreadRange)
    (r : Resolution) : Option Access :=
  r.spread.bind fun here =>
    if here == range then none else some (.slice a here)

theorem spreadAccess?_eq
    (l : SeqLayout)
    (a : Access) :
    l.spreadAccess? a =
      l.resolveSaturated.spread.map fun range =>
        .ofCases a
          (l.shortLengths.filterMap fun k =>
            ((l.resolve k).bind (spreadCase a range)).map
              fun b => (k, b))
          (.slice a range) := by
  unfold spreadAccess?
  rcases l.resolveSaturated.spread with _ | range
  · rfl
  · rw [Option.map_some,
      ← filterMap_shortResolutions l fun _ => spreadCase a range]
    change some _ = some _
    congr 3
    funext ⟨n, r⟩
    unfold spreadCase
    change r.spread.bind _ = _
    rcases r.spread with _ | here
    · rfl
    · simp only [Option.bind_some]
      split <;> rfl

/- The access of a slot leads to what the resolution says. -/
theorem resolve_slotAccess
    (hRead : a.resolve root c = .ok v)
    (hItems : v.items? = some items)
    (hResolve : l.resolve items.length = some r)
    {slot : Nat}
    {source source' : SlotSource}
    (hSaturated : l.resolveSaturated.slots[slot]? = some source)
    (hSlot : r.slots[slot]? = some source') :
    (l.slotAccess a slot source).resolve root c =
      v.readSlot source' := by
  rw [slotAccess_eq,
    Access.resolve_ofCases hRead (Value.readLength_eq hItems),
    Access.resolveCase_filterMap]
  have hMem := mem_shortLengths (accepts_of_resolve hResolve)
  by_cases hShort : items.length ∈ l.shortLengths
  · rw [if_pos hShort]
    simp only [hResolve, slotCase, hSlot, Option.bind_some]
    split
    · rename_i hSame
      rcases hAt : Access.atLength a items.length (a.slot source) with
        _ | b
      · rw [hAt] at hSame
        cases hSame
      · rw [hAt] at hSame
        have hEq : b = a.slot source' := Access.eq_of_beq hSame
        have hHere := Access.resolve_of_atLength hRead hItems hAt
        rw [hEq, Access.resolve_slot hRead] at hHere
        rw [hHere]
        exact Access.resolve_slot hRead source
    · exact Access.resolve_slot hRead source'
  · rw [if_neg hShort]
    have hReads := (resolveSaturated_reads hItems hResolve
      (Nat.le_of_not_lt fun hLt => hShort (hMem.mpr hLt))).1
    have hAt := congrArg (fun reads => reads[slot]?) hReads
    simp only [List.getElem?_map, hSaturated, hSlot,
      Option.map_some] at hAt
    rw [← Option.some.inj hAt]
    exact Access.resolve_slot hRead source

/- The accesses of all slots lead where the resolution says. -/
theorem resolve_slotAccesses
    (hRead : a.resolve root c = .ok v)
    (hItems : v.items? = some items)
    (hResolve : l.resolve items.length = some r) :
    (l.slotAccesses a).map (Access.resolve root c) =
      r.slots.map v.readSlot := by
  have hLength :=
    l.length_slots_resolveSaturated.trans
      (length_slots_of_resolve hResolve).symm
  refine List.ext_getElem? fun i => ?_
  unfold slotAccesses
  simp only [List.getElem?_map, List.getElem?_zipIdx]
  rcases hSaturated : l.resolveSaturated.slots[i]? with _ | source
  · rw [List.getElem?_eq_none_iff, hLength,
      ← List.getElem?_eq_none_iff] at hSaturated
    rw [hSaturated]
    rfl
  · rcases hSlot : r.slots[i]? with _ | source'
    · rw [List.getElem?_eq_none_iff, ← hLength,
        ← List.getElem?_eq_none_iff, hSaturated] at hSlot
      cases hSlot
    · simp only [Option.map_some, Nat.zero_add]
      exact congrArg some
        (resolve_slotAccess hRead hItems hResolve hSaturated hSlot)

/- The access of the spread leads where the resolution says. -/
theorem resolve_spreadAccess?
    (hRead : a.resolve root c = .ok v)
    (hItems : v.items? = some items)
    (hResolve : l.resolve items.length = some r) :
    (l.spreadAccess? a).map (Access.resolve root c) =
      r.spread.map v.readSlice := by
  have hSome := l.isSome_spread_resolveSaturated.trans
    (isSome_spread_of_resolve hResolve).symm
  rw [spreadAccess?_eq]
  rcases hRange : l.resolveSaturated.spread with _ | range
  · rw [hRange] at hSome
    rcases hSpread : r.spread with _ | range'
    · rfl
    · rw [hSpread] at hSome
      cases hSome
  · rw [hRange] at hSome
    rcases hSpread : r.spread with _ | range'
    · rw [hSpread] at hSome
      cases hSome
    · simp only [Option.map_some]
      rw [Access.resolve_ofCases hRead (Value.readLength_eq hItems),
        Access.resolveCase_filterMap]
      have hMem := mem_shortLengths (accepts_of_resolve hResolve)
      by_cases hShort : items.length ∈ l.shortLengths
      · rw [if_pos hShort]
        simp only [hResolve, spreadCase, hSpread, Option.bind_some]
        split
        · rename_i hSame
          rw [eq_of_beq hSame]
          exact congrArg some (Access.resolve_slice hRead range)
        · exact congrArg some (Access.resolve_slice hRead range')
      · rw [if_neg hShort]
        have hReads := (resolveSaturated_reads hItems hResolve
          (Nat.le_of_not_lt fun hLt => hShort (hMem.mpr hLt))).2
        rw [hRange, hSpread] at hReads
        rw [← Option.some.inj hReads]
        exact congrArg some (Access.resolve_slice hRead range)

/- The test of the length decides whether it can match. -/
theorem reading_lengthTest?
    (hRead : a.resolve root c = .ok v)
    (hItems : v.items? = some items) :
    ((l.lengthTest? a).map (Test.reading root c)).getD (.ok true) =
      .ok (l.accepts items.length) := by
  have hLength := Value.readLength_eq hItems
  unfold lengthTest? accepts
  rcases l.maxLength with _ | most
  · by_cases hLeast : l.minLength = 0
    · simp [hLeast]
    · have hTest := Test.reading_of_query
        (t := .lengthAtLeast a l.minLength) rfl hRead
      simp only [hLength] at hTest
      simp only [beq_iff_eq, hLeast, if_false, Option.map_some,
        Option.getD_some, hTest, Option.map_none, Option.getD_none,
        Bool.and_true]
      rfl
  · by_cases hMost : most = l.minLength
    · have hTest := Test.reading_of_query
        (t := .lengthIs a l.minLength) rfl hRead
      simp only [hLength] at hTest
      simp only [beq_iff_eq, hMost, if_true, Option.map_some,
        Option.getD_some, hTest]
      refine congrArg Except.ok ?_
      rw [Bool.eq_iff_iff]
      simp only [beq_iff_eq, Bool.and_eq_true, decide_eq_true_eq]
      omega
    · have hTest := Test.reading_of_query
        (t := .lengthIn a l.minLength most) rfl hRead
      simp only [hLength] at hTest
      simp only [beq_iff_eq, hMost, if_false, Option.map_some,
        Option.getD_some, hTest]
      rfl

end SeqLayout

namespace Lowered

variable {l : SeqLayout}
variable {root : Value}
variable {c : Choices}
variable {a : Access}
variable {v : Value}
variable {items : List Value}

/- The length test is not built from others. -/
theorem isLeaf_of_seqAccesses
    {fixed : Option Nat}
    {length : Option Test}
    {slots : List Access}
    {slice : Option Access}
    (h : seqAccesses l a fixed = some (length, slots, slice)) :
    ∀ t ∈ length, t.IsLeaf := by
  intro t ht
  have hReads := Test.reads_lengthTest (P := fun _ => True) trivial h
  exact (hReads t (Option.mem_toList.mpr ht)).isLeaf

/-
  On a sequence whose length can match, the length test holds
  and the accesses lead where the resolution says.
-/
theorem reads_of_seqAccesses
    (hRead : a.resolve root c = .ok v)
    (hItems : v.items? = some items)
    {r : Resolution}
    (hResolve : l.resolve items.length = some r)
    {fixed : Option Nat}
    (hFixed : ∀ n ∈ fixed, items.length = n)
    {length : Option Test}
    {slots : List Access}
    {slice : Option Access}
    (h : seqAccesses l a fixed = some (length, slots, slice)) :
    (∀ t ∈ length, t.reading root c = .ok true) ∧
    slots.map (Access.resolve root c) = r.slots.map v.readSlot ∧
    slice.map (Access.resolve root c) = r.spread.map v.readSlice := by
  cases fixed with
  | none =>
      cases h
      refine ⟨fun t ht => ?_,
        SeqLayout.resolve_slotAccesses hRead hItems hResolve,
        SeqLayout.resolve_spreadAccess? hRead hItems hResolve⟩
      have hTest := SeqLayout.reading_lengthTest? (l := l) hRead hItems
      rw [Option.mem_def.mp ht,
        SeqLayout.accepts_of_resolve hResolve] at hTest
      exact hTest
  | some n =>
      rw [← hFixed n rfl] at h
      simp only [seqAccesses, hResolve, Option.map_some] at h
      cases h
      refine ⟨by rintro t ⟨⟩, ?_, ?_⟩
      · rw [List.map_map]
        exact List.map_congr_left fun source _ =>
          Access.resolve_slot hRead source
      · rw [Option.map_map]
        exact Option.map_congr fun range _ =>
          Access.resolve_slice hRead range

/- On any other sequence the length test fails. -/
theorem refused_of_seqAccesses
    (hRead : a.resolve root c = .ok v)
    (hItems : v.items? = some items)
    (hResolve : l.resolve items.length = none)
    {fixed : Option Nat}
    (hFixed : ∀ n ∈ fixed, items.length = n)
    {length : Option Test}
    {slots : List Access}
    {slice : Option Access}
    (h : seqAccesses l a fixed = some (length, slots, slice)) :
    ∃ t, length = some t ∧ t.reading root c = .ok false := by
  cases fixed with
  | none =>
      cases h
      have hTest := SeqLayout.reading_lengthTest? (l := l) hRead hItems
      rw [← l.isSome_resolve, hResolve] at hTest
      rcases hLength : l.lengthTest? a with _ | t
      · rw [hLength] at hTest
        cases hTest
      · rw [hLength] at hTest
        exact ⟨t, rfl, hTest⟩
  | some n =>
      rw [← hFixed n rfl] at h
      simp only [seqAccesses, hResolve, Option.map_none] at h
      cases h

end Lowered

end MatchCompiler
