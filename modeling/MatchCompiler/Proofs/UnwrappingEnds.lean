import MatchCompiler.Proofs.Closedness

/-
  This file shows where unwrapping ends in any closed pool.

  A pool that is put together by hand may hold aliases of
  references, aliases without a target and targets of other
  schemas, and its chains may go round in a circle. Unwrapping
  never leaves the pool, and it ends where the chain ends if
  the chain does not return to a slot.

  Key theorems include:
    * `SchemaPool.unwrapping_ends`
-/

------------------------------------------------------------
-- Closed Pools
------------------------------------------------------------

namespace MatchCompiler

namespace SchemaPool

variable {p : SchemaPool}
variable {a b : SchemaId}

/-
  In a closed pool unwrapping always ends in a slot of the
  pool. From a slot whose chain of targets does not return to
  a slot, opening aliases ends at the first that is no alias
  with a target, and unwrapping ends at the first that is
  neither an alias nor a reference with a target. To do so
  again changes nothing, and the target of a slot and what its
  aliases are opened to are unwrapped alike.
-/
theorem unwrapping_ends
    (hClosed : p.Closed)
    (hSlot : a < p.size) :
    (p.canonical a < p.size ∧ p.unwrap a < p.size) ∧
    (p.Grounded a →
      EndsAt p.AliasOf a (p.canonical a) ∧
      EndsAt p.Links a (p.unwrap a) ∧
      p.canonical (p.canonical a) = p.canonical a ∧
      p.unwrap (p.unwrap a) = p.unwrap a ∧
      p.unwrap (p.canonical a) = p.unwrap a ∧
      ∀ b, p.Links a b → p.unwrap b = p.unwrap a) := by
  refine ⟨⟨hClosed.follow_lt hSlot _ _, hClosed.unwrap_lt hSlot⟩,
    fun hGrounded => ?_⟩
  have hCanonical := canonical_endsAt hGrounded
  have hUnwrap := unwrap_endsAt hGrounded
  have hAgain : p.canonical (p.canonical a) = p.canonical a :=
    canonical_of_end hCanonical.2
  refine ⟨hCanonical, hUnwrap, hAgain, unwrap_of_end hUnwrap.2, ?_, ?_⟩
  · unfold unwrap
    rw [hAgain]
  · intro b hLinks
    have hBehind := unwrap_endsAt (hGrounded.of_path (.single hLinks))
    have hWhole : EndsAt p.Links a (p.unwrap b) :=
      ⟨.head hLinks hBehind.1, hBehind.2⟩
    exact hWhole.unique p.rightUnique_links hUnwrap

/-
  A number with another name, a reference to it, and another
  name for the reference.
-/
def renamedReference : SchemaPool :=
  let p := (push {} (.ofPrimitive .i32 "i32")).1
  let p := (p.push (p.view .alias 0 "Meters")).1
  let p := (p.push (p.view .reference 1 "MetersRef")).1
  (p.push (p.view .alias 2 "DistanceRef")).1

theorem Closed.push_view
    (h : p.Closed)
    (kind : ViewKind)
    (name : String)
    (hSource : b < p.size) :
    (p.push (p.view kind b name)).1.Closed :=
  h.push ((h.view kind hSource name).mono (Nat.le_succ _))

theorem renamedReference_closed :
    renamedReference.Closed := by
  have hEmpty : ({} : SchemaPool).Closed :=
    ⟨fun slot => Schema.within_unknown "" 0, nofun⟩
  have hNumber := hEmpty.push (Schema.within_ofPrimitive .i32 "i32" _)
  have hAlias := hNumber.push_view .alias "Meters" (b := 0) (by decide)
  have hReference :=
    hAlias.push_view .reference "MetersRef" (b := 1) (by decide)
  exact hReference.push_view .alias "DistanceRef" (b := 2) (by decide)

theorem renamedReference_grounded :
    renamedReference.Grounded 3 := by
  apply Acyclic.grounded
  apply acyclic_of_rank id
  decide

/- The name for the reference is unwrapped to the number. -/
theorem renamedReference_ends :
    renamedReference.Closed ∧ 3 < renamedReference.size ∧
    renamedReference.Grounded 3 ∧ renamedReference.Links 3 2 ∧
    EndsAt renamedReference.AliasOf 3 2 ∧
    EndsAt renamedReference.Links 3 0 ∧
    renamedReference.unwrap 2 = 0 := by
  have hLinks : renamedReference.Links 3 2 := ⟨by decide, .inl (by decide)⟩
  have hCanonical : renamedReference.canonical 3 = 2 := by decide
  have hUnwrap : renamedReference.unwrap 3 = 0 := by decide
  rcases (unwrapping_ends renamedReference_closed (a := 3) (by decide)).2
      renamedReference_grounded with
    ⟨hAliases, hAll, -, -, -, hTarget⟩
  rw [hCanonical] at hAliases
  rw [hUnwrap] at hAll hTarget
  exact ⟨renamedReference_closed, by decide, renamedReference_grounded,
    hLinks, hAliases, hAll, hTarget 2 hLinks⟩

end SchemaPool

end MatchCompiler
