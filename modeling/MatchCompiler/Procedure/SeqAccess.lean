import MatchCompiler.Procedure.Test

/-
  This file turns the layout of a sequence pattern into a
  test of the length and accesses for slots and spread.

  From the saturated length on, one resolution serves every
  length. Each shorter length that can match has its own, and
  an access that differs there depends on the length.

  Key definitions include:
    * `SeqLayout.lengthTest?`
    * `SeqLayout.slotAccesses`
    * `SeqLayout.spreadAccess?`
-/

------------------------------------------------------------
-- Lengths
------------------------------------------------------------

namespace MatchCompiler

namespace SeqLayout

/- The test of the length, unless every length matches. -/
def lengthTest?
    (l : SeqLayout)
    (access : Access) : Option Test :=
  let least := l.minLength
  match l.maxLength with
  | none =>
      if least == 0 then none else some (.lengthAtLeast access least)
  | some most =>
      if most == least then
        some (.lengthIs access least)
      else
        some (.lengthIn access least most)

/-
  The resolutions of the lengths that can match below the
  saturated length.
-/
def shortResolutions (l : SeqLayout) : List (Nat × Resolution) :=
  (List.range' l.minLength (l.saturatedLength - l.minLength)).filterMap
    fun n => (l.resolve n).map (fun r => (n, r))

end SeqLayout

end MatchCompiler

------------------------------------------------------------
-- Slots And Spread
------------------------------------------------------------

namespace MatchCompiler

namespace Access

/- An access that depends on a length, if any length differs. -/
def ofCases
    (base : Access)
    (cases : List (Nat × Access))
    (otherwise : Access) : Access :=
  if cases.isEmpty then otherwise else .byLength base cases otherwise

end Access

namespace SeqLayout

/-
  The access of one slot, given what it reads from the
  saturated length on.
-/
def slotAccess
    (l : SeqLayout)
    (access : Access)
    (slot : Nat)
    (source : SlotSource) : Access :=
  let otherwise := access.slot source
  let cases := l.shortResolutions.filterMap fun (n, r) => do
    let here := access.slot (← r.slots[slot]?)
    if Access.atLength access n otherwise == some here then
      none
    else
      some (n, here)
  .ofCases access cases otherwise

/- The accesses of all slots. -/
def slotAccesses
    (l : SeqLayout)
    (access : Access) : List Access :=
  l.resolveSaturated.slots.zipIdx.map fun (source, slot) =>
    l.slotAccess access slot source

/- The access of the spread. -/
def spreadAccess?
    (l : SeqLayout)
    (access : Access) : Option Access := do
  let range ← l.resolveSaturated.spread
  let cases := l.shortResolutions.filterMap fun (n, r) => do
    let here ← r.spread
    if here == range then none else some (n, .slice access here)
  return .ofCases access cases (.slice access range)

end SeqLayout

end MatchCompiler
