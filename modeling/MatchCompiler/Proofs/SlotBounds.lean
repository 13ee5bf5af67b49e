import MatchCompiler.Proofs.CheckTrials
import MatchCompiler.Proofs.Checking
import MatchCompiler.Proofs.RepeatedExtraction

/-
  This file shows that no slot is looked up that is not in
  the pool.

  Checking a pattern only uses the registry, and always for
  slots that it has, so that the registry stays closed while
  arms are checked, and the names that are bound have slots
  of it. The run that stops at faults then goes through the
  same steps: where a slot is looked up, it is there. The
  scrutinee is still a slot when coverage looks it up.

  Key definitions include:
    * `CheckState.Within`
    * `Registry.Stalls`
    * `Stays`
    * `Pattern.ChecksWithin`
    * `Registry.KeepsToSlots`

  Key theorems include:
    * `Pattern.checksWithin`
    * `Registry.checkArms_stays`
    * `Registry.closed_after_uses`
-/

------------------------------------------------------------
-- Steps Of Checking
------------------------------------------------------------

namespace MatchCompiler

/- A state of checking mentions only slots of its pool. -/
structure CheckState.Within
    (s : CheckState) : Prop where
  settled : s.registry.Settled
  bindings : ∀ b ∈ s.bindings, b.schema < s.registry.pool.size

/-
  Some type is not extracted to the end, now or after further
  uses of the registry.
-/
def Registry.Stalls
    (r : Registry)
    (ctx : CheckContext) : Prop :=
  ∃ r', r.Later r' ∧
    ∃ id, r'.extract? ctx.table (ctx.depth + 1) id = none

theorem Registry.Stalls.of_later
    {r r' : Registry}
    {ctx : CheckContext}
    (h : r.Later r')
    (hStalls : r'.Stalls ctx) : r.Stalls ctx := by
  rcases hStalls with ⟨r'', hLater, hEndless⟩
  exact ⟨r'', h.trans hLater, hEndless⟩

/- Looking a type up has a result if its extraction ends. -/
theorem Registry.Settled.extractTrial_yields
    {r : Registry}
    (h : r.Settled)
    (ctx : CheckContext)
    (id : DescriptorId) :
    (r.extractTrial ctx.table (ctx.depth + 1) id).Yields (r.Stalls ctx)
      (r.schemaWithin ctx.table ctx.depth id) := by
  have hAgrees := h.extractTrial_agrees ctx.table (ctx.depth + 1) id
  unfold schemaWithin
  cases hEnds : r.extract? ctx.table (ctx.depth + 1) id with
  | some result => exact .inl (hAgrees.of_some hEnds)
  | none => exact .inr ⟨⟨r, .refl, id, hEnds⟩, hAgrees.of_none hEnds⟩

/-
  Started with a number of slots at least, a step of checking
  does nothing to the registry but use it, and mentions only
  slots; its result is as described for the size of the pool.
  The step that stops at faults does the same, unless it meets
  an extraction that does not end.
-/
def Stays
    {α : Type}
    (ctx : CheckContext)
    (n : Nat)
    (m : Check α)
    (m' : CheckTrial α)
    (post : Nat → α → Prop) : Prop :=
  ∀ s : CheckState, s.Within → n ≤ s.registry.pool.size →
    s.registry.Later (m.run s).2.registry ∧
    (m.run s).2.Within ∧
    post (m.run s).2.registry.pool.size (m.run s).1 ∧
    (m'.run s).Yields (s.registry.Stalls ctx) (m.run s)

namespace Stays

variable {α β : Type}
variable {ctx : CheckContext}
variable {n : Nat}
variable {post : Nat → α → Prop}

theorem pure
    {x : α}
    (h : ∀ k, n ≤ k → post k x) :
    Stays ctx n (Pure.pure x) (Pure.pure x) post :=
  fun _ hs hn => ⟨.refl, hs, h _ hn, .inl rfl⟩

/- A step after a step; there may be more slots then. -/
theorem bind
    {m : Check α}
    {m' : CheckTrial α}
    {f : α → Check β}
    {f' : α → CheckTrial β}
    {mid : Nat → α → Prop}
    {post : Nat → β → Prop}
    (hm : Stays ctx n m m' mid)
    (hf : ∀ x k, n ≤ k → mid k x → Stays ctx k (f x) (f' x) post) :
    Stays ctx n (m >>= f) (m' >>= f') post := by
  intro s hs hn
  rcases hm s hs hn with ⟨hLater, hs', hMid, hYields⟩
  have hSize := (hLater.settled hs.settled).2.pool.size_le
  rcases hf _ _ (hn.trans hSize) hMid _ hs' (Nat.le_refl _) with
    ⟨hLater', hs'', hPost, hYields'⟩
  exact ⟨hLater.trans hLater', hs'', hPost,
    hYields.bind hYields' (.of_later hLater)⟩

/- What looks up no slot leaves the registry as it is. -/
theorem plain
    {m : Check α}
    (h :
      ∀ s : CheckState, n ≤ s.registry.pool.size →
        (∀ b ∈ s.bindings, b.schema < s.registry.pool.size) →
        (m.run s).2.registry = s.registry ∧
        ∀ b ∈ (m.run s).2.bindings, b.schema < s.registry.pool.size) :
    Stays ctx n m (CheckTrial.plain m) fun _ _ => True := by
  intro s hs hn
  rcases h s hn hs.bindings with ⟨hSame, hBound⟩
  refine ⟨hSame ▸ .refl, ⟨hSame ▸ hs.settled, ?_⟩, trivial, .inl rfl⟩
  rw [hSame]
  exact hBound

/- A problem is no use of the registry. -/
theorem report (p : Problem) :
    Stays ctx n (Check.report p) (CheckTrial.plain (Check.report p))
      fun _ _ => True :=
  plain fun _ _ hBound => ⟨rfl, hBound⟩

theorem reject
    (span : Span)
    (p : Problem) :
    Stays ctx n (Check.reject span p) (CheckTrial.plain (Check.reject span p))
      fun _ _ => True :=
  plain fun _ _ hBound => ⟨rfl, hBound⟩

theorem resetBindings
    {bindings : List Binding}
    (h : ∀ b ∈ bindings, b.schema < n) :
    Stays ctx n (Check.resetBindings bindings)
      (CheckTrial.plain (Check.resetBindings bindings))
      fun _ _ => True :=
  plain fun _ hn _ => ⟨rfl, fun b hb => (h b hb).trans_le hn⟩

theorem current :
    Stays ctx n get get fun k (s : CheckState) =>
      ∀ b ∈ s.bindings, b.schema < k :=
  fun _ hs _ => ⟨.refl, hs, hs.bindings, .inl rfl⟩

theorem pool :
    Stays ctx n Check.pool CheckTrial.pool fun k p =>
      p.Closed ∧ p.size = k :=
  fun _ hs _ => ⟨.refl, hs, ⟨hs.settled.closed.pool, rfl⟩, .inl rfl⟩

/- Something is looked up in the pool. -/
theorem lookup
    {t : Trial β}
    {x : β}
    (ht : t = Pure.pure x)
    {m : Check α}
    {f : β → CheckTrial α}
    (h : Stays ctx n m (f x) post) :
    Stays ctx n m (liftM t >>= f) post := by
  subst ht
  exact h

theorem schema
    {id : SchemaId}
    (hId : id < n) :
    Stays ctx n (Check.schema id) (CheckTrial.schema id) fun k s =>
      s.Within k := by
  refine pool.bind fun p k hLe hp => ?_
  rcases hp with ⟨hClosed, rfl⟩
  have hLook := SchemaPool.look_eq (hId.trans_le hLe)
  rw [← bind_pure (liftM _), hLook]
  exact pure fun _ hLe => (hClosed.slots id).mono hLe

theorem typeName
    {id : SchemaId}
    (hId : id < n) :
    Stays ctx n (Check.typeName id) (CheckTrial.typeName id)
      fun _ _ => True := by
  refine pool.bind fun p k hLe hp => ?_
  rcases hp with ⟨-, rfl⟩
  have hName := SchemaPool.nameOf?_eq (hId.trans_le hLe)
  rw [← bind_pure (liftM _), hName]
  exact pure fun _ _ => trivial

/- Any use of the registry leads to a state like before. -/
theorem use
    {f : Registry → Registry × SchemaId}
    {m' : CheckTrial SchemaId}
    (hUse :
      ∀ r : Registry, n ≤ r.pool.size → r.Use (f r).1 (f r).2)
    (hYields :
      ∀ s : CheckState, s.Within → n ≤ s.registry.pool.size →
        (m'.run s).Yields (s.registry.Stalls ctx)
          ((f s.registry).2, { s with registry := (f s.registry).1 })) :
    Stays ctx n
      (do
        let s ← get
        set { s with registry := (f s.registry).1 }
        return (f s.registry).2) m'
      fun k slot => slot < k := by
  intro s hs hn
  have hUsed := hUse s.registry hn
  rcases hUsed.settled hs.settled with ⟨hSettled, hLt⟩
  have hSize := (hUsed.grows hs.settled).pool.size_le
  refine ⟨.single ⟨_, hUsed⟩, ⟨hSettled, fun b hb => ?_⟩, hLt,
    hYields s hs hn⟩
  exact (hs.bindings b hb).trans_le hSize

/- A type is extracted, or its extraction does not end. -/
theorem schemaOf
    (id : DescriptorId) :
    Stays ctx n (Check.schemaOf ctx id) (CheckTrial.schemaOf ctx id)
      fun k slot => slot < k := by
  refine use (f := fun r => r.schemaWithin ctx.table ctx.depth id)
    (fun r _ => r.use_schemaWithin ctx.table ctx.depth id)
    fun s hs _ => ?_
  have hYields := hs.settled.extractTrial_yields ctx id
  exact (hYields.map fun q => (q, s)).map fun q =>
    (q.1.2, { s with registry := q.1.1 })

/- Sequences are shared for elements that have a slot. -/
theorem sequenceOf
    {element : SchemaId}
    (hElement : element < n) :
    Stays ctx n (Check.sequenceOf element) (CheckTrial.sequenceOf element)
      fun k slot => slot < k := by
  refine use
    (f := fun r =>
      ({ r with pool := (r.pool.sequenceOf element).1 },
        (r.pool.sequenceOf element).2))
    (fun _ hn => .sequenceOf (hElement.trans_le hn))
    fun s hs hn => ?_
  rcases typeName hElement s hs hn with ⟨-, -, -, hYields⟩
  exact hYields.bind (.inl rfl) fun h => h

end Stays

end MatchCompiler

------------------------------------------------------------
-- Nodes Without Parts
------------------------------------------------------------

namespace MatchCompiler

namespace Stays

variable {n : Nat}
variable {ctx : CheckContext}

/- A name is bound to a slot. -/
theorem bindName
    (x : String)
    {id : SchemaId}
    (hId : id < n)
    (span : Span) :
    Stays ctx n (Check.bind x id span)
      (CheckTrial.plain (Check.bind x id span)) fun _ _ => True := by
  refine plain fun s hn hBound => ?_
  have hState : (get : Check CheckState).run s = (s, s) := rfl
  unfold Check.bind
  rw [Check.run_step, hState]
  dsimp only
  cases s.bindings.find? (fun b => b.name == x) with
  | some first => exact ⟨rfl, hBound⟩
  | none =>
      refine ⟨rfl, List.forall_mem_append.mpr ⟨hBound, ?_⟩⟩
      exact List.forall_mem_singleton.mpr (hId.trans_le hn)

theorem literal
    (span : Span)
    {id : SchemaId}
    (hId : id < n)
    (l : Literal) :
    Stays ctx n (Check.literal ctx span id l)
      (CheckTrial.literal ctx span id l) fun _ _ => True := by
  refine pool.bind fun p k hLe hp => ?_
  rcases hp with ⟨-, rfl⟩
  have hId' := hId.trans_le hLe
  refine lookup (SchemaPool.checkLiteral?_eq hId' _ _) ?_
  cases p.checkLiteral ctx.marker id l with
  | ok meaning => exact pure fun _ _ => trivial
  | error cause => exact (typeName hId').bind fun _ _ _ _ => reject span _

/- The type that is tested for has a slot. -/
theorem typeTest
    (span : Span)
    {id : SchemaId}
    (hId : id < n)
    (target : DescriptorId) :
    Stays ctx n (Check.typeTest ctx span id target)
      (CheckTrial.typeTest ctx span id target) fun k q => q.2 < k := by
  refine (schemaOf target).bind fun slot k hLe₁ hSlot => ?_
  refine pool.bind fun p k' hLe hp => ?_
  rcases hp with ⟨hClosed, rfl⟩
  have hSlot' : slot < p.size := hSlot.trans_le hLe
  have hId' : id < p.size := hId.trans_le (hLe₁.trans hLe)
  refine lookup (hClosed.compat?_eq hSlot' hId') ?_
  cases p.compat slot id with
  | exact => exact pure fun _ hLe => hSlot'.trans_le hLe
  | numeric => exact pure fun _ hLe => hSlot'.trans_le hLe
  | deferred =>
      refine (schema hSlot').bind fun _ _ hLe _ => ?_
      exact pure fun _ hLe' => hSlot'.trans_le (hLe.trans hLe')
  | incompatible =>
      refine (typeName hId').bind fun _ _ hLe₁ _ => ?_
      refine (typeName (hSlot'.trans_le hLe₁)).bind fun _ _ hLe₂ _ => ?_
      refine (reject span _).bind fun _ _ hLe₃ _ => ?_
      exact pure fun _ hLe₄ =>
        hSlot'.trans_le (hLe₁.trans (hLe₂.trans (hLe₃.trans hLe₄)))

theorem setMembers
    (span : Span)
    {element : SchemaId}
    (hElement : element < n)
    (numbered : Bool)
    (ls : List Literal) :
    Stays ctx n (Check.setMembers ctx span element numbered ls)
      (CheckTrial.setMembers ctx span element numbered ls)
      fun _ _ => True := by
  induction ls generalizing n with
  | nil => exact pure fun _ _ => trivial
  | cons l ls ih =>
      refine pool.bind fun p k hLe hp => ?_
      rcases hp with ⟨-, rfl⟩
      have hElement' := hElement.trans_le hLe
      refine lookup (SchemaPool.checkLiteral?_eq hElement' _ _) ?_
      cases p.checkLiteral ctx.marker element l with
      | ok meaning =>
          exact (ih hElement').bind fun _ _ _ _ => pure fun _ _ => trivial
      | error cause =>
          refine (typeName hElement').bind fun _ _ hLe₁ _ => ?_
          refine (report _).bind fun _ _ hLe₂ _ => ?_
          exact ih (hElement'.trans_le (hLe₁.trans hLe₂))

theorem setPattern
    (span : Span)
    {id : SchemaId}
    (hId : id < n)
    (ls : List Literal)
    (exact : Bool) :
    Stays ctx n (Check.setPattern ctx span id ls exact)
      (CheckTrial.setPattern ctx span id ls exact)
      fun _ _ => True := by
  refine (schema hId).bind fun s k hLe hs => ?_
  cases hElement : s.element with
  | none => cases s.structuralKind <;> exact reject span _
  | some element =>
      cases s.structuralKind
      case set =>
        refine pool.bind fun p k' hLe' hp => ?_
        rcases hp with ⟨-, rfl⟩
        have hLt := (hs.element element hElement).trans_le hLe'
        refine lookup (SchemaPool.ordinalDomain?_eq hLt) ?_
        refine (setMembers span hLt _ ls).bind fun _ _ _ _ => ?_
        exact pure fun _ _ => trivial
      all_goals exact reject span _

theorem compareAlternative
    {first bound : List Binding}
    (hFirst : ∀ b ∈ first, b.schema < n)
    (hBound : ∀ b ∈ bound, b.schema < n)
    (span : Span) :
    Stays ctx n (Check.compareAlternative first bound span)
      (CheckTrial.compareAlternative first bound span)
      fun _ _ => True := by
  unfold Check.compareAlternative CheckTrial.compareAlternative
  dsimp only
  split
  · refine pool.bind fun p k hLe hp => ?_
    rcases hp with ⟨hClosed, rfl⟩
    refine lookup
      (hClosed.conflict?_eq (fun b hb => (hFirst b hb).trans_le hLe)
        fun b hb => (hBound b hb).trans_le hLe) ?_
    cases Check.typeConflict? p first bound with
    | some problem => exact report _
    | none => exact pure fun _ _ => trivial
  · exact report _

theorem guardNames
    (span : Span)
    (g : Guard) :
    Stays ctx n (Check.guardNames span g)
      (CheckTrial.plain (Check.guardNames span g)) fun _ _ => True := by
  refine plain fun s _ hBound => ?_
  have hRun :
      (Check.guardNames span g).run s =
        StateT.run
          (if !(g.uses.filter fun n =>
              !(s.bindings.map Binding.name).contains n).isEmpty then
            Check.report
              (.unboundInGuard span
                (g.uses.filter fun n =>
                  !(s.bindings.map Binding.name).contains n)
                (s.bindings.map Binding.name))
          else
            Pure.pure ()) s := rfl
  rw [hRun]
  split
  · exact ⟨rfl, hBound⟩
  · exact ⟨rfl, hBound⟩

theorem pinBoth
    (s : Schema)
    (field : FieldName)
    (fromCase : Option (List Member))
    (q : Checked) :
    Stays ctx n (Check.pinBoth s field fromCase q)
      (CheckTrial.plain (Check.pinBoth s field fromCase q))
      fun _ _ => True := by
  refine plain fun st _ hBound => ?_
  unfold Check.pinBoth
  split
  · exact ⟨rfl, hBound⟩
  · exact ⟨rfl, hBound⟩
  · dsimp only
    split
    · exact ⟨rfl, hBound⟩
    · exact ⟨rfl, hBound⟩

theorem slotDefaults
    {element : SchemaId}
    (hElement : element < n)
    (es : List (SeqElement Pattern)) :
    Stays ctx n (Check.slotDefaults ctx element es)
      (CheckTrial.slotDefaults ctx element es) fun _ _ => True := by
  induction es generalizing n with
  | nil => exact pure fun _ _ => trivial
  | cons e es ih =>
      match e with
      | .spread _ _ => exact ih hElement
      | .item p none => exact ih hElement
      | .item p (some l) =>
          refine pool.bind fun q k hLe hq => ?_
          rcases hq with ⟨-, rfl⟩
          have hElement' := hElement.trans_le hLe
          refine lookup (SchemaPool.checkLiteral?_eq hElement' _ _) ?_
          cases q.checkLiteral ctx.marker element l with
          | ok meaning => exact ih hElement'
          | error cause =>
              refine (typeName hElement').bind fun _ _ hLe₁ _ => ?_
              refine (report _).bind fun _ _ hLe₂ _ => ?_
              exact ih (hElement'.trans_le (hLe₁.trans hLe₂))

/- The type of a head has a slot: the scrutinee's, or its own. -/
theorem head
    (span : Span)
    {scrutinee : SchemaId}
    (hScrutinee : scrutinee < n)
    (h : ConstructorHead) :
    Stays ctx n (Check.head ctx span scrutinee h)
      (CheckTrial.head ctx span scrutinee h) fun k r =>
        ∀ resolved, r = .ok resolved → resolved.target < k := by
  have hOwn :
      ∀ {k : Nat} (caseName : Option String), n ≤ k →
        Stays ctx k
          (Pure.pure (.ok { target := scrutinee, caseName }) :
            Check (Except Problem ResolvedHead))
          (Pure.pure (.ok { target := scrutinee, caseName }))
          fun k r =>
            ∀ resolved, r = .ok resolved → resolved.target < k := by
    intro k caseName hLe
    refine pure fun k' hLe' resolved hEq => ?_
    cases hEq
    exact hScrutinee.trans_le (hLe.trans hLe')
  have hFails :
      ∀ {k : Nat} (problem : Problem),
        Stays ctx k
          (Pure.pure (.error problem) :
            Check (Except Problem ResolvedHead))
          (Pure.pure (.error problem))
          fun k r =>
            ∀ resolved, r = .ok resolved → resolved.target < k :=
    fun _ => pure fun _ _ _ hEq => nomatch hEq
  unfold Check.head CheckTrial.head
  dsimp only
  rcases h.typeName with _ | name
  · exact hOwn _ (Nat.le_refl n)
  · refine pool.bind fun p k hLe hp => ?_
    rcases hp with ⟨hClosed, rfl⟩
    have hOld := hScrutinee.trans_le hLe
    refine lookup (hClosed.names?_eq hOld name) ?_
    rcases p.names scrutinee name with _ | _
    · rcases h.target with _ | descriptor
      · refine (schema hOld).bind fun t k₁ hLe₁ _ => ?_
        split
        · exact hOwn _ (hLe.trans hLe₁)
        · refine pool.bind fun p' k₂ hLe₂ hp' => ?_
          rcases hp' with ⟨hClosed', rfl⟩
          have hOld' := hOld.trans_le (hLe₁.trans hLe₂)
          exact lookup (hClosed'.headCandidates?_eq hOld') (hFails _)
      · refine (schemaOf descriptor).bind fun slot k₁ hLe₁ hSlot => ?_
        refine pool.bind fun p' k₂ hLe₂ hp' => ?_
        rcases hp' with ⟨hClosed', rfl⟩
        have hSlot' : slot < p'.size := hSlot.trans_le hLe₂
        have hOld' := hOld.trans_le (hLe₁.trans hLe₂)
        refine lookup (hClosed'.compat?_eq hSlot' hOld') ?_
        cases p'.compat slot scrutinee
        case exact =>
          refine pure fun k₃ hLe₃ resolved hEq => ?_
          cases hEq
          exact hSlot'.trans_le hLe₃
        case deferred =>
          refine (schema hSlot').bind fun t k₃ hLe₃ _ => ?_
          refine pure fun k₄ hLe₄ resolved hEq => ?_
          cases hEq
          exact hSlot'.trans_le (hLe₃.trans hLe₄)
        all_goals exact (typeName hOld').bind fun _ _ _ _ => hFails _
    · exact hOwn _ hLe

end Stays

end MatchCompiler

------------------------------------------------------------
-- Fields
------------------------------------------------------------

namespace MatchCompiler

namespace Schema

variable {s : Schema}
variable {n : Nat}

/- The fields of a branch have slots. -/
theorem Within.branch?
    (h : s.Within n)
    {label : String}
    {b : Branch}
    (hBranch : s.branch? label = some b) :
    ∀ f ∈ b.fields, f.schema < n :=
  h.branches b (List.mem_of_find?_eq_some hBranch)

/- A field that may be read is shared or a branch's. -/
theorem Within.readable
    (h : s.Within n)
    {pinned : Option (List Member)}
    {name : String}
    {span : Span}
    {f : Field}
    (hReadable : s.readable pinned name span = .ok (some f)) :
    f.schema < n := by
  rcases cases_of_readable hReadable with
    ⟨g, hField, hSame⟩ | ⟨-, labels, -, hPinned, -⟩
  · cases hSame
    exact h.fields f (List.mem_of_find?_eq_some hField)
  · rcases Option.bind_eq_some_iff.mp hPinned.symm with
      ⟨first, -, hPinned⟩
    rcases Option.bind_eq_some_iff.mp hPinned with ⟨b, hBranch, hField⟩
    exact h.branch? hBranch f (List.mem_of_find?_eq_some hField)

theorem Within.positionalFields
    (h : s.Within n)
    (pinned : Option (List Member)) :
    ∀ f ∈ s.positionalFields pinned, f.schema < n := by
  have hShared :
      ∀ f ∈ s.fields.filter (fun f => !s.isDiscriminator f.name),
        f.schema < n :=
    fun f hf => h.fields f (List.mem_of_mem_filter hf)
  unfold Schema.positionalFields
  dsimp only
  split
  · split
    · rename_i b hBranch
      exact h.branch? hBranch
    · exact hShared
  · exact hShared

end Schema

end MatchCompiler

------------------------------------------------------------
-- Parts Of Patterns
------------------------------------------------------------

namespace MatchCompiler

namespace Pattern

/- Checking a pattern against a slot mentions only slots. -/
def ChecksWithin
    (ctx : CheckContext)
    (p : Pattern) : Prop :=
  ∀ (n : Nat) (id : SchemaId), id < n →
    Stays ctx n (p.check ctx id) (p.check? ctx id) fun _ _ => True

variable {ctx : CheckContext}
variable {n : Nat}

/- The names of the first branch have slots. -/
theorem checkBranches_stays
    {id : SchemaId}
    (hId : id < n)
    {before : List Binding}
    (hBefore : ∀ b ∈ before, b.schema < n)
    {first : Option (List Binding)}
    (hFirst : ∀ bs ∈ first, ∀ b ∈ bs, b.schema < n)
    {ps : List Pattern}
    (h : ∀ p ∈ ps, ChecksWithin ctx p) :
    Stays ctx n (checkBranches ctx id before first ps)
      (checkBranches? ctx id before first ps) fun k r =>
        ∀ bs ∈ r.2, ∀ b ∈ bs, b.schema < k := by
  induction ps generalizing n first with
  | nil =>
      refine Stays.pure fun k hLe bs hbs b hb => ?_
      exact (hFirst bs hbs b hb).trans_le hLe
  | cons p ps ih =>
      rcases List.forall_mem_cons.mp h with ⟨hHead, hTail⟩
      refine (Stays.resetBindings hBefore).bind fun _ k₁ hLe₁ _ => ?_
      have hId₁ := hId.trans_le hLe₁
      refine (hHead k₁ id hId₁).bind fun q k₂ hLe₂ _ => ?_
      refine Stays.current.bind fun st k₃ hLe₃ hBound => ?_
      have hLe := hLe₁.trans (hLe₂.trans hLe₃)
      have hNew : ∀ b ∈ st.bindings.drop before.length, b.schema < k₃ :=
        fun b hb => hBound b (List.mem_of_mem_drop hb)
      -- Whether or not there is a first branch, there is one now.
      have hRest :
          ∀ {k : Nat}, k₃ ≤ k →
            Stays ctx k
              (do
                let r ← checkBranches ctx id before
                  (some
                    (first.getD (st.bindings.drop before.length))) ps
                return (q :: r.1, r.2))
              (do
                let r ← checkBranches? ctx id before
                  (some
                    (first.getD (st.bindings.drop before.length))) ps
                return (q :: r.1, r.2))
              fun k r => ∀ bs ∈ r.2, ∀ b ∈ bs, b.schema < k := by
        intro k hLe'
        have hLeK := hLe.trans hLe'
        refine (ih (hId.trans_le hLeK)
          (fun b hb => (hBefore b hb).trans_le hLeK) ?_ hTail).bind
          fun r k₄ _ hNames => ?_
        · rintro bs hbs b hb
          cases hbs
          cases hOption : first with
          | none =>
              rw [hOption] at hb
              exact (hNew b hb).trans_le hLe'
          | some bs =>
              rw [hOption] at hb
              exact (hFirst bs hOption b hb).trans_le hLeK
        · refine Stays.pure fun k₅ hLe₅ bs hbs b hb => ?_
          exact (hNames bs hbs b hb).trans_le hLe₅
      dsimp only
      cases hOption : first with
      | none =>
          rw [hOption] at hRest
          exact hRest (Nat.le_refl k₃)
      | some reference =>
          rw [hOption] at hRest
          refine (Stays.compareAlternative
            (fun b hb => (hFirst reference hOption b hb).trans_le hLe)
            hNew _).bind fun _ k hLe' _ => ?_
          exact hRest hLe'

theorem checkField_stays
    {d : Discriminator}
    (hd : d.schema < n)
    {fs : List (FieldName × Pattern)}
    (h : ∀ f ∈ fs, ChecksWithin ctx f.2) :
    Stays ctx n (checkField ctx d fs) (checkField? ctx d fs)
      fun _ _ => True := by
  induction fs with
  | nil => exact Stays.pure fun _ _ => trivial
  | cons f fs ih =>
      rcases List.forall_mem_cons.mp h with ⟨hHead, hTail⟩
      unfold checkField checkField?
      split
      · refine (hHead n d.schema hd).bind fun _ _ _ _ => ?_
        exact Stays.pure fun _ _ => trivial
      · exact ih hTail

theorem checkFields_stays
    {s : Schema}
    (hs : s.Within n)
    (pinned : Option (List Member))
    {fs : List (FieldName × Pattern)}
    (h : ∀ f ∈ fs, ChecksWithin ctx f.2) :
    Stays ctx n (checkFields ctx s pinned fs) (checkFields? ctx s pinned fs)
      fun _ _ => True := by
  induction fs generalizing n with
  | nil => exact Stays.pure fun _ _ => trivial
  | cons f fs ih =>
      rcases List.forall_mem_cons.mp h with ⟨hHead, hTail⟩
      unfold checkFields checkFields?
      split
      · exact ih hs hTail
      · rcases hReadable : s.readable pinned f.1.name f.1.span with
          problem | _ | field
        · refine (Stays.report _).bind fun _ _ hLe _ => ?_
          exact ih (hs.mono hLe) hTail
        · exact ih hs hTail
        · have hField := hs.readable hReadable
          refine (hHead n field.schema hField).bind fun _ _ hLe _ => ?_
          refine (ih (hs.mono hLe) hTail).bind fun _ _ _ _ => ?_
          exact Stays.pure fun _ _ => trivial

theorem checkArgs_stays
    {ps : List Pattern}
    (h : ∀ p ∈ ps, ChecksWithin ctx p)
    {fs : List Field}
    (hFields : ∀ f ∈ fs, f.schema < n) :
    Stays ctx n (checkArgs ctx ps fs) (checkArgs? ctx ps fs)
      fun _ _ => True := by
  induction ps generalizing n fs with
  | nil => exact Stays.pure fun _ _ => trivial
  | cons p ps ih =>
      rcases List.forall_mem_cons.mp h with ⟨hHead, hTail⟩
      cases fs with
      | nil => exact Stays.pure fun _ _ => trivial
      | cons f fs =>
          rcases List.forall_mem_cons.mp hFields with ⟨hf, hRest⟩
          refine (hHead n f.schema hf).bind fun _ _ hLe _ => ?_
          refine (ih hTail fun g hg => (hRest g hg).trans_le hLe).bind
            fun _ _ _ _ => ?_
          exact Stays.pure fun _ _ => trivial

theorem checkItems_stays
    {element : SchemaId}
    (hElement : element < n)
    {es : List (SeqElement Pattern)}
    (h : ∀ e ∈ es, ∀ p ∈ e.pattern?, ChecksWithin ctx p) :
    Stays ctx n (checkItems ctx element es) (checkItems? ctx element es)
      fun _ _ => True := by
  induction es generalizing n with
  | nil => exact Stays.pure fun _ _ => trivial
  | cons e es ih =>
      rcases List.forall_mem_cons.mp h with ⟨hHead, hTail⟩
      cases e with
      | spread q span => exact ih hElement hTail
      | item p d =>
          refine (hHead p rfl n element hElement).bind fun _ _ hLe _ => ?_
          refine (ih (hElement.trans_le hLe) hTail).bind fun _ _ _ _ => ?_
          exact Stays.pure fun _ _ => trivial

theorem checkSpread_stays
    {element : SchemaId}
    (hElement : element < n)
    {es : List (SeqElement Pattern)}
    (h : ∀ e ∈ es, ∀ p ∈ e.pattern?, ChecksWithin ctx p) :
    Stays ctx n (checkSpread ctx element es) (checkSpread? ctx element es)
      fun _ _ => True := by
  induction es with
  | nil => exact Stays.pure fun _ _ => trivial
  | cons e es ih =>
      rcases List.forall_mem_cons.mp h with ⟨hHead, hTail⟩
      match e, hHead with
      | .item _ _, _ => exact ih hTail
      | .spread none _, _ => exact ih hTail
      | .spread (some p) _, hHead =>
          refine (Stays.sequenceOf hElement).bind fun slot k _ hSlot => ?_
          refine (hHead p rfl k slot hSlot).bind fun _ _ _ _ => ?_
          exact Stays.pure fun _ _ => trivial

theorem checkTuple_stays
    {es : List (SeqElement Pattern)}
    (h : ∀ e ∈ es, ∀ p ∈ e.pattern?, ChecksWithin ctx p)
    {fs : List Field}
    (hFields : ∀ f ∈ fs, f.schema < n) :
    Stays ctx n (checkTuple ctx es fs) (checkTuple? ctx es fs)
      fun _ _ => True := by
  induction es generalizing n fs with
  | nil => exact Stays.pure fun _ _ => trivial
  | cons e es ih =>
      rcases List.forall_mem_cons.mp h with ⟨hHead, hTail⟩
      cases fs with
      | nil => cases e <;> exact Stays.pure fun _ _ => trivial
      | cons f fs =>
          rcases List.forall_mem_cons.mp hFields with ⟨hf, hRest⟩
          cases e with
          | spread q span => exact ih hTail hRest
          | item p d =>
              refine (hHead p rfl n f.schema hf).bind fun _ _ hLe _ => ?_
              refine (ih hTail fun g hg => (hRest g hg).trans_le hLe).bind
                fun _ _ _ _ => ?_
              exact Stays.pure fun _ _ => trivial

theorem checkEntries_stays
    {key : SchemaId}
    (hKey : key < n)
    {value : SchemaId}
    (hValue : value < n)
    {es : List (Literal × Pattern)}
    (h : ∀ e ∈ es, ChecksWithin ctx e.2) :
    Stays ctx n (checkEntries ctx key value es)
      (checkEntries? ctx key value es) fun _ _ => True := by
  induction es generalizing n with
  | nil => exact Stays.pure fun _ _ => trivial
  | cons e es ih =>
      rcases List.forall_mem_cons.mp h with ⟨hHead, hTail⟩
      refine Stays.pool.bind fun p k hLe hp => ?_
      rcases hp with ⟨-, rfl⟩
      have hKey' := hKey.trans_le hLe
      have hValue' := hValue.trans_le hLe
      refine Stays.lookup (SchemaPool.checkLiteral?_eq hKey' _ _) ?_
      cases p.checkLiteral ctx.marker key e.1 with
      | ok meaning =>
          refine (hHead _ value hValue').bind fun _ _ hLe' _ => ?_
          refine (ih (hKey'.trans_le hLe') (hValue'.trans_le hLe')
            hTail).bind fun _ _ _ _ => ?_
          exact Stays.pure fun _ _ => trivial
      | error cause =>
          refine (Stays.typeName hKey').bind fun _ _ hLe₁ _ => ?_
          refine (Stays.report _).bind fun _ _ hLe₂ _ => ?_
          have hLe' := hLe₁.trans hLe₂
          exact ih (hKey'.trans_le hLe') (hValue'.trans_le hLe') hTail

theorem checkOptional_stays
    (span : Span)
    {s : Schema}
    (hs : s.Within n)
    (h : ConstructorHead)
    (count : Nat)
    {ps : List Pattern}
    (hArgs : ∀ p ∈ ps, ChecksWithin ctx p) :
    Stays ctx n (checkOptional ctx span s h count ps)
      (checkOptional? ctx span s h count ps) fun _ _ => True := by
  have hNone :
      ∀ args : List Pattern,
        Stays ctx n
          (if h.name == some "None" && args.length + count == 0 then
            Pure.pure (.literal span .none)
          else
            Check.reject span
              (Check.optionalProblem span s.displayName h
                (args.length + count)))
          (if h.name == some "None" && args.length + count == 0 then
            Pure.pure (.literal span .none)
          else
            CheckTrial.plain (Check.reject span
              (Check.optionalProblem span s.displayName h
                (args.length + count))))
          fun _ _ => True := by
    intro args
    split
    · exact Stays.pure fun _ _ => trivial
    · exact Stays.reject span _
  match ps with
  | [] => exact hNone []
  | p :: q :: ps => exact hNone (p :: q :: ps)
  | [p] =>
      unfold checkOptional checkOptional?
      split
      · cases hElement : s.element with
        | none => exact Stays.pure fun _ _ => trivial
        | some element =>
            have hLt := hs.element element hElement
            refine (hArgs p List.mem_cons_self n element hLt).bind
              fun _ _ _ _ => ?_
            exact Stays.pure fun _ _ => trivial
      · exact Stays.reject span _

end Pattern

end MatchCompiler

------------------------------------------------------------
-- Patterns And Arms
------------------------------------------------------------

namespace MatchCompiler

namespace Pattern

variable {ctx : CheckContext}
variable {n : Nat}
variable {α : Type}
variable {post : Nat → α → Prop}

/- The discriminator's pattern is checked, if there is one. -/
theorem discriminator_stays
    {target : Schema}
    (hTarget : target.Within n)
    {fs : List (FieldName × Pattern)}
    (h : ∀ f ∈ fs, ChecksWithin ctx f.2)
    {rest : Option (FieldName × Checked) → Check α}
    {rest' : Option (FieldName × Checked) → CheckTrial α}
    (hRest :
      ∀ disc k, n ≤ k → Stays ctx k (rest disc) (rest' disc) post) :
    Stays ctx n
      (match target.discriminator with
        | none => do rest (← pure none)
        | some d => do rest (← checkField ctx d fs))
      (match target.discriminator with
        | none => do rest' (← pure none)
        | some d => do rest' (← checkField? ctx d fs)) post := by
  cases hDisc : target.discriminator with
  | none => exact hRest none n (Nat.le_refl n)
  | some d =>
      refine (checkField_stays (hTarget.discriminator d hDisc) h).bind
        fun disc k hLe _ => ?_
      exact hRest disc k hLe

/- The branches that are pinned are worked out. -/
theorem pinned_stays
    (target : Schema)
    (fromCase : Option (List Member))
    (disc : Option (FieldName × Checked))
    {rest : Option (List Member) → Check α}
    {rest' : Option (List Member) → CheckTrial α}
    (hRest :
      ∀ pinned k, n ≤ k → Stays ctx k (rest pinned) (rest' pinned) post) :
    Stays ctx n
      (match disc with
        | none => do rest (← pure fromCase)
        | some (name, q) => do
            rest (← Check.pinBoth target name fromCase q))
      (match disc with
        | none => do rest' (← pure fromCase)
        | some (name, q) => do
            rest' (← CheckTrial.plain
              (Check.pinBoth target name fromCase q))) post := by
  cases disc with
  | none => exact hRest fromCase n (Nat.le_refl n)
  | some d =>
      refine (Stays.pinBoth target d.1 fromCase d.2).bind
        fun pinned k hLe _ => ?_
      exact hRest pinned k hLe

/- The other fields and the arguments are checked. -/
theorem fieldsAndArgs_stays
    {target : Schema}
    (hTarget : target.Within n)
    (pinned : Option (List Member))
    {fs : List (FieldName × Pattern)}
    {ps : List Pattern}
    (hFields : ∀ f ∈ fs, ChecksWithin ctx f.2)
    (hArgs : ∀ p ∈ ps, ChecksWithin ctx p)
    (problem : Problem)
    (build :
      List (FieldRead × Checked) → List (FieldRead × Checked) →
      Checked) :
    Stays ctx n
      (do
        let named ← checkFields ctx target pinned fs
        if (target.positionalFields pinned).length < ps.length then
          Check.report problem
        let unnamed ← checkArgs ctx ps (target.positionalFields pinned)
        return build named unnamed)
      (do
        let named ← checkFields? ctx target pinned fs
        if (target.positionalFields pinned).length < ps.length then
          CheckTrial.plain (Check.report problem)
        let unnamed ← checkArgs? ctx ps (target.positionalFields pinned)
        return build named unnamed)
      fun _ _ => True := by
  refine (checkFields_stays hTarget pinned hFields).bind
    fun named k hLe _ => ?_
  have hUnnamed :
      ∀ {k' : Nat}, k ≤ k' →
        Stays ctx k'
          (do
            let unnamed ←
              checkArgs ctx ps (target.positionalFields pinned)
            return build named unnamed)
          (do
            let unnamed ←
              checkArgs? ctx ps (target.positionalFields pinned)
            return build named unnamed)
          fun _ _ => True := by
    intro k' hLe'
    have hWithin := hTarget.mono (hLe.trans hLe')
    refine (checkArgs_stays hArgs (hWithin.positionalFields pinned)).bind
      fun _ _ _ _ => ?_
    exact Stays.pure fun _ _ => trivial
  dsimp only
  split
  · exact (Stays.report problem).bind fun _ _ hLe' _ => hUnnamed hLe'
  · exact hUnnamed (Nat.le_refl k)

/- The branches of an alternation are checked one by one. -/
theorem checksWithin_alt
    (span : Span)
    {ps : List Pattern}
    (ih : ∀ p ∈ ps, ChecksWithin ctx p) :
    ChecksWithin ctx (.alt span ps) := by
  intro n id hId
  refine Stays.current.bind fun st k hLe hBound => ?_
  have hNone :
      ∀ bs ∈ (none : Option (List Binding)), ∀ b ∈ bs,
        b.schema < k := by
    rintro bs ⟨⟩
  refine (checkBranches_stays (hId.trans_le hLe) hBound hNone ih).bind
    fun r k' hLe' hFirst => ?_
  have hNames :
      ∀ b ∈ st.bindings ++ r.2.getD [], b.schema < k' := by
    refine List.forall_mem_append.mpr ⟨fun b hb => ?_, fun b hb => ?_⟩
    · exact (hBound b hb).trans_le hLe'
    · cases hOption : r.2 with
      | none =>
          rw [hOption] at hb
          cases hb
      | some bs =>
          rw [hOption] at hb
          exact hFirst bs hOption b hb
  refine (Stays.resetBindings hNames).bind fun _ _ _ _ => ?_
  exact Stays.pure fun _ _ => trivial

/- The head of a constructor gives the type of its fields. -/
theorem checksWithin_constructor
    (span : Span)
    (h : ConstructorHead)
    {fs : List (FieldName × Pattern)}
    {ps : List Pattern}
    (ihFields : ∀ f ∈ fs, ChecksWithin ctx f.2)
    (ihArgs : ∀ p ∈ ps, ChecksWithin ctx p) :
    ChecksWithin ctx (.constructor span h fs ps) := by
  intro n id hId
  refine (Stays.schema hId).bind fun s k hLe hs => ?_
  cases s.structuralKind
  case optional =>
    exact checkOptional_stays span hs h fs.length ihArgs
  -- Records and unions are checked alike.
  case record | union =>
    refine (Stays.head span (hId.trans_le hLe) h).bind
      fun r k₁ _ hHead => ?_
    rcases r with problem | resolved
    · exact Stays.reject span _
    · refine (Stays.schema (hHead resolved rfl)).bind
        fun target k₂ _ hTarget => ?_
      rcases resolved.caseName.mapM
          (fun c => target.pinCase ctx.marker c span) with
        problem | fromCase
      · exact Stays.reject span _
      · refine discriminator_stays hTarget ihFields
          fun disc k₃ hLe₃ => ?_
        refine pinned_stays target fromCase disc
          fun pinned k₄ hLe₄ => ?_
        exact fieldsAndArgs_stays (hTarget.mono (hLe₃.trans hLe₄))
          pinned ihFields ihArgs _ _
  all_goals exact Stays.reject span _

/- Elements are checked at the element type or at the fields. -/
theorem checksWithin_seq
    (span : Span)
    {es : List (SeqElement Pattern)}
    (ih : ∀ e ∈ es, ∀ p ∈ e.pattern?, ChecksWithin ctx p) :
    ChecksWithin ctx (.seq span es) := by
  intro n id hId
  unfold check check?
  rcases SeqElement.spreadSpans es with _ | ⟨first, _ | ⟨second, _⟩⟩
  case cons.cons => exact Stays.reject span _
  all_goals
    refine (Stays.schema hId).bind fun s k _ hs => ?_
    cases s.structuralKind
    case sequence | array =>
      rcases hElement : s.element with _ | element
      · exact Stays.reject span _
      · have hLt := hs.element element hElement
        refine (Stays.slotDefaults hLt es).bind
          fun _ k₁ hLe₁ _ => ?_
        have hLt₁ := hLt.trans_le hLe₁
        dsimp only
        rcases s.fixedLength?.bind
            (Check.arrayProblem? span s.displayName
              (SeqElement.layout es)) with
          _ | problem
        · refine (checkItems_stays hLt₁ ih).bind
            fun items k₂ hLe₂ _ => ?_
          refine (checkSpread_stays (hLt₁.trans_le hLe₂) ih).bind
            fun _ _ _ _ => ?_
          exact Stays.pure fun _ _ => trivial
        · exact Stays.reject span _
    case tuple =>
      rcases SeqElement.tupleProblem? s.displayName es with
        _ | problem
      · dsimp only
        split
        · exact Stays.reject span _
        · refine (checkTuple_stays ih hs.fields).bind
            fun _ _ _ _ => ?_
          exact Stays.pure fun _ _ => trivial
      · exact Stays.reject span _
    all_goals exact Stays.reject span _

/-
  Checking a pattern against a slot does nothing to the
  registry but use it for slots that it has.
-/
theorem checksWithin
    (p : Pattern) :
    ChecksWithin ctx p := by
  induction p using partInduction with
  | wildcard span =>
      intro n id hId
      exact Stays.pure fun _ _ => trivial
  | bind span x =>
      intro n id hId
      refine (Stays.bindName x hId span).bind fun _ _ _ _ => ?_
      exact Stays.pure fun _ _ => trivial
  | named span x p ih =>
      intro n id hId
      refine (ih n id hId).bind fun _ _ hLe _ => ?_
      refine (Stays.bindName x (hId.trans_le hLe) span).bind
        fun _ _ _ _ => ?_
      exact Stays.pure fun _ _ => trivial
  | literal span l =>
      intro n id hId
      exact Stays.literal span hId l
  | alt span ps ih => exact checksWithin_alt span ih
  | guarded span p g ih =>
      intro n id hId
      refine (ih n id hId).bind fun _ _ _ _ => ?_
      refine (Stays.guardNames span g).bind fun _ _ _ _ => ?_
      exact Stays.pure fun _ _ => trivial
  | constructor span h fs ps ihFields ihArgs =>
      exact checksWithin_constructor span h ihFields ihArgs
  | seq span es ih => exact checksWithin_seq span ih
  | typeTest span target =>
      intro n id hId
      refine (Stays.typeTest span hId target).bind fun _ _ _ _ => ?_
      exact Stays.pure fun _ _ => trivial
  | narrow span x target =>
      intro n id hId
      refine (Stays.typeTest span hId target).bind
        fun q k _ hTarget => ?_
      refine (Stays.bindName x hTarget span).bind fun _ _ _ _ => ?_
      exact Stays.pure fun _ _ => trivial
  | map span es ih =>
      intro n id hId
      refine (Stays.schema hId).bind fun s k _ hs => ?_
      rcases hKey : s.key with _ | key
      · exact Stays.reject span _
      · rcases hValue : s.value with _ | value
        · exact Stays.reject span _
        · refine (checkEntries_stays (hs.key key hKey)
            (hs.value value hValue) ih).bind fun _ _ _ _ => ?_
          exact Stays.pure fun _ _ => trivial
  | set span ls exact =>
      intro n id hId
      exact Stays.setPattern span hId ls exact

end Pattern

namespace Registry

variable {r : Registry}
variable {id : SchemaId}

/-
  An arm is checked against a slot by uses of the registry,
  and without a look-up that fails.
-/
theorem checkArm_stays
    (h : r.Settled)
    (hId : id < r.pool.size)
    (ctx : CheckContext)
    (p : Pattern) :
    r.Later (r.checkArm ctx id p).1 ∧
    (∀ arm, (r.checkArm ctx id p).2 = .ok arm →
      ∀ b ∈ arm.bindings,
        b.schema < (r.checkArm ctx id p).1.pool.size) ∧
    (r.checkArm? ctx id p).Yields (r.Stalls ctx)
      (r.checkArm ctx id p) := by
  have hStart : CheckState.Within { registry := r } := ⟨h, nofun⟩
  have hWithin : Pattern.ChecksWithin ctx p := p.checksWithin
  rcases hWithin r.pool.size id hId { registry := r } hStart
      (Nat.le_refl _) with ⟨hLater, hWithin, -, hYields⟩
  unfold checkArm checkArm?
  cases hRun : (p.check ctx id).run { registry := r } with
  | mk q s =>
      rw [hRun] at hLater hWithin hYields
      refine ⟨?_, ?_, hYields.bind ?_ fun h => h⟩
      · dsimp only
        split <;> exact hLater
      · dsimp only
        split
        · intro arm hArm
          cases hArm
          exact hWithin.bindings
        · exact fun arm hArm => nomatch hArm
      · dsimp only
        split <;> exact .inl rfl

/- So are arms in order; their names have slots. -/
theorem checkArms_stays
    (h : r.Settled)
    (hId : id < r.pool.size)
    (ctx : CheckContext)
    (ps : List Pattern) :
    r.Later (r.checkArms ctx id ps).1 ∧
    (∀ arm, .ok arm ∈ (r.checkArms ctx id ps).2 →
      ∀ b ∈ arm.bindings,
        b.schema < (r.checkArms ctx id ps).1.pool.size) ∧
    (r.checkArms? ctx id ps).Yields (r.Stalls ctx)
      (r.checkArms ctx id ps) := by
  induction ps generalizing r with
  | nil => exact ⟨.refl, nofun, .inl rfl⟩
  | cons p ps ih =>
      rcases checkArm_stays h hId ctx p with ⟨hFirst, hBound, hYields⟩
      rcases hFirst.settled h with ⟨hSettled, hGrows⟩
      rcases ih hSettled (hId.trans_le hGrows.pool.size_le) with
        ⟨hRest, hOthers, hYieldRest⟩
      refine ⟨hFirst.trans hRest, fun arm hArm b hb => ?_,
        hYields.bind (hYieldRest.bind (.inl rfl) fun h => h)
          (.of_later hFirst)⟩
      rcases List.mem_cons.mp hArm with hArm | hArm
      · have hSize := (hRest.settled hSettled).2.pool.size_le
        exact (hBound arm hArm.symm b hb).trans_le hSize
      · exact hOthers arm hArm b hb

end Registry

end MatchCompiler

------------------------------------------------------------
-- Registries In Use
------------------------------------------------------------

namespace MatchCompiler

/-
  A registry all of whose uses look up slots only. What it
  stores are slots, and none is left unfilled; a further use,
  looking up any descriptor in any table among them, gives a
  slot. At any time of an extraction, what is stored are slots
  of the pool as it is then, and so are what mentioned types
  are found to be and what that leads to. Extraction, the
  comparison of types in slots, and the checking of arms
  against a slot have the same results when each slot that
  they look up has to be there. Checking leaves the registry
  like this, with the types of all names in slots, and with
  the scrutinee, so that coverage finds it.
-/
structure Registry.KeepsToSlots
    (r : Registry) : Prop where
  settled : r.Settled
  uses :
    ∀ r' slot, r.Use r' slot → r'.Settled ∧ slot < r'.pool.size
  lookup :
    ∀ t depth id,
      r.Use (r.schemaWithin t depth id).1 (r.schemaWithin t depth id).2
  extraction :
    ∀ t x, Relation.ReflTransGen (Move t) { registry := r } x →
      x.Closed ∧
      ∀ env ref slot, (∀ s ∈ env, s < x.registry.pool.size) →
        x.registry.Finds t env ref slot →
        slot < x.registry.pool.size ∧
        x.registry.pool.unwrap slot < x.registry.pool.size
  extracts :
    ∀ t depth id, (r.extractTrial t depth id).Agrees (r.extract? t depth id)
  comparison :
    ∀ a < r.pool.size, ∀ b < r.pool.size,
      r.pool.unwrap a < r.pool.size ∧
      r.pool.unwrap? a = .ok (r.pool.unwrap a) ∧
      r.pool.compat? a b = .ok (r.pool.compat a b)
  checking :
    ∀ ctx, ∀ id < r.pool.size, ∀ ps,
      (r.checkArms? ctx id ps).Yields (r.Stalls ctx)
        (r.checkArms ctx id ps) ∧
      (r.checkArms ctx id ps).1.Settled ∧
      id < (r.checkArms ctx id ps).1.pool.size ∧
      (∀ arm, .ok arm ∈ (r.checkArms ctx id ps).2 →
        ∀ b ∈ arm.bindings,
          b.schema < (r.checkArms ctx id ps).1.pool.size) ∧
      ∀ arms span,
        (r.checkArms ctx id ps).1.pool.coverage? id arms span =
          .ok ((r.checkArms ctx id ps).1.pool.coverage id arms span)

theorem Registry.Settled.keepsToSlots
    {r : Registry}
    (h : r.Settled) :
    r.KeepsToSlots where
  settled := h
  uses r' slot hUse := hUse.settled h
  lookup t depth id := r.use_schemaWithin t depth id
  extraction t x hMoves := by
    have hClosed := h.closed_moves hMoves
    refine ⟨hClosed, fun env ref slot hEnv hFinds => ?_⟩
    have hSlot := hFinds.lt hClosed.registry.bounded hEnv
    exact ⟨hSlot, hClosed.registry.pool.unwrap_lt hSlot⟩
  extracts t depth id := h.extractTrial_agrees t depth id
  comparison a ha b hb := by
    have hPool := h.closed.pool
    exact ⟨hPool.unwrap_lt ha, hPool.unwrap?_eq ha, hPool.compat?_eq ha hb⟩
  checking ctx id hId ps := by
    rcases Registry.checkArms_stays h hId ctx ps with
      ⟨hLater, hNames, hYields⟩
    rcases hLater.settled h with ⟨hSettled, hGrows⟩
    have hId' := hId.trans_le hGrows.pool.size_le
    exact ⟨hYields, hSettled, hId', hNames,
      SchemaPool.coverage?_eq hId'⟩

/-
  A registry that is used from the start in any way, with any
  tables, mentions and looks up slots of its pool only.
-/
theorem Registry.closed_after_uses
    {marker : Char}
    {r : Registry}
    (hLater : Registry.Later { marker } r) :
    r.KeepsToSlots :=
  (hLater.settled (settled_fresh marker)).1.keepsToSlots

/-
  A list node and the sequences of it are put into a registry,
  and then a descriptor that another table does not have.
-/
def nodesAndStranger : Registry :=
  let first := Registry.schemaOf {} Registry.linkedNodes 0
  let second : Registry :=
    { first.1 with pool := (first.1.pool.sequenceOf first.2).1 }
  (second.schemaOf {} 7).1

/- The registry has the node, its reference and two more. -/
theorem nodesAndStranger_closed :
    Registry.Later {} nodesAndStranger ∧
    nodesAndStranger.pool.size = 4 ∧
    nodesAndStranger.KeepsToSlots := by
  have hUses :
      ∀ first : Registry × SchemaId, Registry.Use {} first.1 first.2 →
        ∀ second : Registry,
          second =
            { first.1 with pool := (first.1.pool.sequenceOf first.2).1 } →
          Registry.Later {} (second.schemaOf {} 7).1 := by
    rintro first hFirst second rfl
    have hNode := (hFirst.settled (Registry.settled_fresh 'k')).2
    have hSecond := Registry.Use.sequenceOf hNode
    exact .tail (.tail (.single ⟨_, hFirst⟩) ⟨_, hSecond⟩)
      ⟨_, Registry.use_schemaOf _ {} 7⟩
  have hLater : Registry.Later {} nodesAndStranger :=
    hUses _ (Registry.use_schemaOf {} Registry.linkedNodes 0) _ rfl
  have hSize : nodesAndStranger.pool.size = 4 := by decide +kernel
  exact ⟨hLater, hSize, Registry.closed_after_uses hLater⟩

end MatchCompiler
