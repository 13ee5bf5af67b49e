import MatchCompiler.Interner
import MatchCompiler.Pattern.CaseName
import Mathlib.Data.List.Count
import Mathlib.Data.List.Nodup
import Mathlib.Data.List.Perm.Basic

/-
  This file shows what the short name of a case stands for.

  A label belongs to a case name if it is a beginning, then
  the marker, then the name. The test can be made on bytes: a
  label that ends in the bytes of a name is never cut inside
  a character. What a name stands for depends on the number
  of places in the list of labels that belong to it, unless
  there is a label that is the name itself.

  Key definitions include:
    * `Marks`
    * `endsMarkedInBytes?`
    * `CaseResolution.SameUpToOrder`
    * `Interner.CaseStandsFor`

  Key theorems include:
    * `endsMarked_iff`
    * `endsMarkedInBytes?_eq`
    * `Interner.caseStandsFor_resolveCase`
    * `Interner.resolveCase_verdict`
-/

------------------------------------------------------------
-- Marked Labels
------------------------------------------------------------

namespace MatchCompiler

/-
  A label that is a beginning, then the marker, then the name
  of a case.
-/
def Marks
    (marker : Char)
    (caseName label : String) : Prop :=
  ∃ before : String, label = before ++ String.singleton marker ++ caseName

variable {marker : Char}
variable {caseName label : String}

theorem endsMarked_iff :
    endsMarked marker caseName label = true ↔
      Marks marker caseName label := by
  unfold endsMarked
  rw [List.isSuffixOf_iff_suffix]
  constructor
  · rintro ⟨before, hLabel⟩
    refine ⟨String.ofList before, String.toList_inj.mp ?_⟩
    simp only [String.toList_append, String.toList_ofList,
      String.toList_singleton, ← hLabel, List.append_assoc,
      List.singleton_append]
  · rintro ⟨before, rfl⟩
    refine ⟨before.toList, ?_⟩
    simp only [String.toList_append, String.toList_singleton,
      List.append_assoc, List.singleton_append]

instance
    (marker : Char)
    (caseName label : String) :
    Decidable (Marks marker caseName label) :=
  decidable_of_iff _ endsMarked_iff

end MatchCompiler

------------------------------------------------------------
-- Bytes
------------------------------------------------------------

namespace MatchCompiler

namespace Text

/- Whether the last bytes of a text are those of another. -/
def endsInBytes (text ending : String) : Bool :=
  ending.utf8ByteSize ≤ text.utf8ByteSize &&
    decide ((text.toByteArray.extract
      (text.utf8ByteSize - ending.utf8ByteSize) text.utf8ByteSize).data =
        ending.toByteArray.data)

/-
  The beginning of a text up to a byte. There is none if the
  byte is not the first of a character.
-/
def upTo?
    (text : String)
    (byte : Nat) : Option String :=
  if h : (String.Pos.Raw.mk byte).IsValid text then
    some (text.sliceTo (text.pos ⟨byte⟩ h)).copy
  else
    none

/- The beginning of a text that is put together. -/
theorem upTo?_append
    (before after : String) :
    upTo? (before ++ after) before.utf8ByteSize = some before := by
  have hValid :
      (String.Pos.Raw.mk before.utf8ByteSize).IsValid (before ++ after) :=
    String.Pos.Raw.isValid_iff_exists_append.mpr ⟨before, after, rfl, rfl⟩
  have hSplits :
      ((before ++ after).pos _ hValid).Splits before after :=
    ⟨rfl, String.offset_pos⟩
  unfold upTo?
  rw [dif_pos hValid, hSplits.copy_sliceTo_eq]

/- The last bytes of a text that is put together. -/
theorem extract_append
    (before after : String) :
    (before ++ after).toByteArray.extract
      ((before ++ after).utf8ByteSize - after.utf8ByteSize)
      (before ++ after).utf8ByteSize = after.toByteArray := by
  have hStart :
      (before ++ after).utf8ByteSize - after.utf8ByteSize =
        before.utf8ByteSize := by
    rw [String.utf8ByteSize_append, Nat.add_sub_cancel]
  rw [hStart, String.toByteArray_append]
  exact ByteArray.extract_append_eq_right String.size_toByteArray.symm
    (by simp only [String.utf8ByteSize_append, String.size_toByteArray])

/-
  A text that ends in the bytes of another ends in the other
  text: the first of these bytes is the first of a character.
-/
theorem endsInBytes_iff
    {text ending : String} :
    endsInBytes text ending = true ↔
      ∃ before : String, text = before ++ ending := by
  unfold endsInBytes
  rw [Bool.and_eq_true, decide_eq_true_eq, decide_eq_true_eq,
    ← ByteArray.ext_iff]
  constructor
  · rintro ⟨hSize, hBytes⟩
    have hValid :
        (String.Pos.Raw.mk
          (text.utf8ByteSize - ending.utf8ByteSize)).IsValid text := by
      refine String.Pos.Raw.isValid_iff_isValidUTF8_extract_utf8ByteSize.mpr
        ⟨Nat.sub_le _ _, ?_⟩
      rw [hBytes]
      exact ending.isValidUTF8
    rcases String.Pos.Raw.isValid_iff_exists_append.mp hValid with
      ⟨before, after, rfl, hStart⟩
    refine ⟨before, congrArg _ (String.toByteArray_inj.mp ?_)⟩
    have hAfter : after.utf8ByteSize = ending.utf8ByteSize := by
      have hSame := congrArg String.Pos.Raw.byteIdx hStart
      simp only [String.utf8ByteSize_append, String.byteIdx_rawEndPos]
        at hSame hSize
      omega
    rw [← hAfter, extract_append] at hBytes
    exact hBytes
  · rintro ⟨before, rfl⟩
    refine ⟨?_, extract_append before ending⟩
    rw [String.utf8ByteSize_append]
    exact Nat.le_add_left _ _

end Text

/-
  The test for marked labels made on bytes: the label is
  longer and ends in the bytes of the name, and the last
  character before them is the marker. There is no result if
  the label is cut inside a character.
-/
def endsMarkedInBytes?
    (marker : Char)
    (caseName label : String) : Option Bool :=
  if caseName.utf8ByteSize < label.utf8ByteSize &&
      Text.endsInBytes label caseName then
    let start := label.utf8ByteSize - caseName.utf8ByteSize
    (Text.upTo? label start).map
      (fun before => before.toList.getLast? == some marker)
  else
    some false

/- A marker before the name makes a label longer than it. -/
theorem Marks.lt_utf8ByteSize
    (h : Marks marker caseName label) :
    caseName.utf8ByteSize < label.utf8ByteSize := by
  rcases h with ⟨before, rfl⟩
  have hMarker := marker.utf8Size_pos
  simp only [String.utf8ByteSize_append, String.utf8ByteSize_singleton]
  omega

/- The marker is the last character before the name. -/
theorem marks_append_iff
    {before : String} :
    Marks marker caseName (before ++ caseName) ↔
      before.toList.getLast? = some marker := by
  unfold Marks
  rw [← List.singleton_suffix_iff_getLast?_eq_some]
  constructor
  · rintro ⟨rest, hSame⟩
    have hBefore : before = rest ++ String.singleton marker :=
      (String.append_left_inj caseName).mp hSame
    refine ⟨rest.toList, ?_⟩
    rw [hBefore, String.toList_append, String.toList_singleton]
  · rintro ⟨rest, hSame⟩
    refine ⟨String.ofList rest, congrArg (· ++ caseName) ?_⟩
    apply String.toList_inj.mp
    rw [String.toList_append, String.toList_singleton,
      String.toList_ofList, hSame]

/- On bytes the test has a result, and it is the right one. -/
theorem endsMarkedInBytes?_eq
    (marker : Char)
    (caseName label : String) :
    endsMarkedInBytes? marker caseName label =
      some (endsMarked marker caseName label) := by
  unfold endsMarkedInBytes?
  split
  · rename_i hEnds
    rw [Bool.and_eq_true] at hEnds
    rcases Text.endsInBytes_iff.mp hEnds.2 with ⟨before, rfl⟩
    have hStart :
        (before ++ caseName).utf8ByteSize - caseName.utf8ByteSize =
          before.utf8ByteSize := by
      rw [String.utf8ByteSize_append, Nat.add_sub_cancel]
    simp only [hStart, Text.upTo?_append, Option.map_some]
    congr 1
    rw [Bool.eq_iff_iff, beq_iff_eq, endsMarked_iff, marks_append_iff]
  · rename_i hEnds
    congr 1
    symm
    rw [Bool.eq_false_iff, Ne, endsMarked_iff]
    intro hMarks
    apply hEnds
    rw [Bool.and_eq_true, decide_eq_true_eq, Text.endsInBytes_iff]
    exact ⟨hMarks.lt_utf8ByteSize, hMarks.choose ++ String.singleton marker,
      hMarks.choose_spec⟩

end MatchCompiler

------------------------------------------------------------
-- Verdicts
------------------------------------------------------------

namespace MatchCompiler

/- What the labels that are marked make of a case name. -/
def CaseResolution.ofMarked : List String → CaseResolution
| [] => .unknown
| [label] => .marked label
| labels => .ambiguous labels

namespace CaseResolution

variable {labels : List String}

theorem ofMarked_ne_exact :
    ofMarked labels ≠ .exact label := by
  unfold ofMarked
  split <;> exact nofun

theorem ofMarked_eq_marked_iff :
    ofMarked labels = .marked label ↔ labels = [label] := by
  unfold ofMarked
  split
  · simp
  · simp
  · rename_i hSeveral
    exact iff_of_false nofun (hSeveral label)

theorem ofMarked_eq_unknown_iff :
    ofMarked labels = .unknown ↔ labels = [] := by
  unfold ofMarked
  split
  · simp
  · simp
  · rename_i hNone _
    exact iff_of_false nofun hNone

theorem ofMarked_eq_ambiguous_iff
    {others : List String} :
    ofMarked labels = .ambiguous others ↔
      labels = others ∧ 1 < labels.length := by
  unfold ofMarked
  split
  · simp
  · simp
  · rename_i hNone hOne
    rw [ambiguous.injEq, iff_self_and]
    intro _
    match labels with
    | [] => exact absurd rfl hNone
    | [label] => exact absurd rfl (hOne label)
    | _ :: _ :: _ => simp

/- Two verdicts that differ in the order of labels at most. -/
inductive SameUpToOrder : CaseResolution → CaseResolution → Prop
| exact (label : String) : SameUpToOrder (.exact label) (.exact label)
| marked (label : String) : SameUpToOrder (.marked label) (.marked label)
| ambiguous
    {labels others : List String}
    (h : labels.Perm others) :
    SameUpToOrder (.ambiguous labels) (.ambiguous others)
| unknown : SameUpToOrder .unknown .unknown

theorem sameUpToOrder_ofMarked
    {others : List String}
    (h : labels.Perm others) :
    SameUpToOrder (ofMarked labels) (ofMarked others) := by
  match labels, others, h.length_eq with
  | [], [], _ => exact .unknown
  | [label], [other], _ =>
      cases List.singleton_perm_singleton.mp h
      exact .marked label
  | _ :: _ :: _, _ :: _ :: _, _ => exact .ambiguous h

end CaseResolution

/- A name stands for a label, or for marked labels. -/
theorem resolveCase_eq
    (labels : List String)
    (hCase : caseName ≠ "") :
    resolveCase labels caseName marker =
      if caseName ∈ labels then
        .exact caseName
      else
        .ofMarked (labels.filter (Marks marker caseName)) := by
  have hFilter :
      labels.filter (endsMarked marker caseName) =
        labels.filter (Marks marker caseName) := by
    apply List.filter_congr
    intro label _
    rw [Bool.eq_iff_iff, endsMarked_iff, decide_eq_true_eq]
  have hEmpty : ¬ caseName.isEmpty = true := by simpa using hCase
  unfold resolveCase
  rw [if_neg hEmpty, hFilter]
  by_cases hIn : caseName ∈ labels
  · rw [if_pos hIn, if_pos (List.contains_iff_mem.mpr hIn)]
  · rw [if_neg hIn, if_neg (mt List.contains_iff_mem.mp hIn)]
    rfl

/- The order of the labels matters for the order only. -/
theorem resolveCase_perm
    {labels others : List String}
    (h : labels.Perm others)
    (hCase : caseName ≠ "") :
    (resolveCase labels caseName marker).SameUpToOrder
      (resolveCase others caseName marker) := by
  rw [resolveCase_eq labels hCase, resolveCase_eq others hCase]
  simp only [h.mem_iff]
  split
  · exact .exact caseName
  · exact CaseResolution.sameUpToOrder_ofMarked (h.filter _)

end MatchCompiler

------------------------------------------------------------
-- Numbered Labels
------------------------------------------------------------

namespace MatchCompiler

/- One place of a list passes a test, and no other place. -/
theorem filter_eq_singleton_iff
    {α : Type}
    {p : α → Bool}
    {xs : List α}
    {x : α} :
    xs.filter p = [x] ↔
      ∃ before after, xs = before ++ x :: after ∧ p x = true ∧
        ∀ y ∈ before ++ after, ¬ p y = true := by
  rw [List.filter_eq_cons_iff]
  simp only [List.filter_eq_nil_iff, List.forall_mem_append]
  constructor
  · rintro ⟨before, after, hSplit, hBefore, hAt, hAfter⟩
    exact ⟨before, after, hSplit, hAt, hBefore, hAfter⟩
  · rintro ⟨before, after, hSplit, hAt, hBefore, hAfter⟩
    exact ⟨before, after, hSplit, hBefore, hAt, hAfter⟩

namespace Interner

variable {i : Interner}
variable {names : List Nat}

/- The numbers of texts, and the texts of numbers. -/
theorem map_get?_eq_iff
    (hHeld : ∀ n ∈ names, n < i.size)
    {labels : List String} :
    labels.map i.get? = names.map some ↔ labels = names.map i.lookup := by
  induction names generalizing labels with
  | nil => simp only [List.map_nil, List.map_eq_nil_iff]
  | cons n names ih =>
      rcases List.forall_mem_cons.mp hHeld with ⟨hFirst, hRest⟩
      cases labels with
      | nil => exact iff_of_false nofun nofun
      | cons label labels =>
          simp only [List.map_cons, List.cons.injEq, ih hRest,
            get?_eq_some_iff, hFirst, true_and]
          rw [eq_comm]

/-
  What a case name stands for among numbered labels. It is
  the first label that is the name. If there is none it is
  the label at the one place that is marked; the labels at
  several such places are listed in order.
-/
structure CaseStandsFor
    (i : Interner)
    (marker : Char)
    (caseName : String)
    (names : List Nat)
    (verdict : CaseResolution) : Prop where
  exact_iff :
    ∀ label, verdict = .exact label ↔
      ∃ n, names.find? (fun n => i.lookup n = caseName) = some n ∧
        i.get? label = some n
  marked_iff :
    ∀ label, verdict = .marked label ↔
      (∀ n ∈ names, i.lookup n ≠ caseName) ∧
      ∃ before n after, names = before ++ n :: after ∧
        Marks marker caseName (i.lookup n) ∧
        (∀ m ∈ before ++ after, ¬ Marks marker caseName (i.lookup m)) ∧
        i.get? label = some n
  ambiguous_iff :
    ∀ labels, verdict = .ambiguous labels ↔
      (∀ n ∈ names, i.lookup n ≠ caseName) ∧
      1 < names.countP (fun n => Marks marker caseName (i.lookup n)) ∧
      labels.map i.get? =
        (names.filter (fun n => Marks marker caseName (i.lookup n))).map some
  unknown_iff :
    verdict = .unknown ↔
      ∀ n ∈ names, i.lookup n ≠ caseName ∧
        ¬ Marks marker caseName (i.lookup n)

/- Only labels that are not the name itself are counted. -/
theorem caseStandsFor_ofMarked
    (hHeld : ∀ n ∈ names, n < i.size)
    (hNone : ∀ n ∈ names, i.lookup n ≠ caseName) :
    i.CaseStandsFor marker caseName names
      (.ofMarked
        ((names.filter (fun n => Marks marker caseName (i.lookup n))).map
          i.lookup)) := by
  have hFind :
      names.find? (fun n => i.lookup n = caseName) = none := by
    rw [List.find?_eq_none]
    intro n hn
    rw [decide_eq_true_eq]
    exact hNone n hn
  refine ⟨fun label => ?_, fun label => ?_, fun labels => ?_, ?_⟩
  · rw [hFind]
    exact iff_of_false CaseResolution.ofMarked_ne_exact nofun
  · rw [CaseResolution.ofMarked_eq_marked_iff, List.map_eq_singleton_iff]
    simp only [filter_eq_singleton_iff, decide_eq_true_eq,
      and_iff_right hNone]
    constructor
    · rintro ⟨n, ⟨before, after, hSplit, hAt, hOthers⟩, hText⟩
      refine ⟨before, n, after, hSplit, hAt, hOthers, ?_⟩
      exact get?_eq_some_iff.mpr ⟨hHeld n (by simp [hSplit]), hText⟩
    · rintro ⟨before, n, after, hSplit, hAt, hOthers, hGet⟩
      exact ⟨n, ⟨before, after, hSplit, hAt, hOthers⟩,
        (get?_eq_some_iff.mp hGet).2⟩
  · rw [CaseResolution.ofMarked_eq_ambiguous_iff, List.length_map,
      ← List.countP_eq_length_filter, and_iff_right hNone, and_comm,
      map_get?_eq_iff fun n hn => hHeld n (List.mem_of_mem_filter hn)]
    exact and_congr_right fun _ => eq_comm
  · rw [CaseResolution.ofMarked_eq_unknown_iff, List.map_eq_nil_iff,
      List.filter_eq_nil_iff]
    simp only [decide_eq_true_eq]
    exact forall₂_congr fun n hn => (and_iff_right (hNone n hn)).symm

/- What is decided on texts is right for their numbers. -/
theorem caseStandsFor_resolveCase
    (hHeld : ∀ n ∈ names, n < i.size)
    (hCase : caseName ≠ "") :
    i.CaseStandsFor marker caseName names
      (resolveCase (names.map i.lookup) caseName marker) := by
  rw [resolveCase_eq _ hCase]
  split
  · rename_i hMem
    rcases List.mem_map.mp hMem with ⟨m, hm, hText⟩
    have hSome :
        (names.find? (fun n => i.lookup n = caseName)).isSome = true := by
      rw [List.find?_isSome]
      exact ⟨m, hm, decide_eq_true hText⟩
    refine ⟨fun label => ?_, fun label => ?_, fun labels => ?_, ?_⟩
    · rcases Option.isSome_iff_exists.mp hSome with ⟨n, hFind⟩
      have hFirst := List.find?_some hFind
      rw [decide_eq_true_eq] at hFirst
      simp only [hFind, CaseResolution.exact.injEq, Option.some.injEq,
        exists_eq_left', get?_eq_some_iff, hFirst,
        hHeld n (List.mem_of_find?_eq_some hFind), true_and]
    · exact iff_of_false nofun fun h => h.1 m hm hText
    · exact iff_of_false nofun fun h => h.1 m hm hText
    · exact iff_of_false nofun fun h => (h m hm).1 hText
  · rename_i hMem
    have hNone : ∀ n ∈ names, i.lookup n ≠ caseName :=
      fun n hn hText => hMem (List.mem_map.mpr ⟨n, hn, hText⟩)
    rw [List.filter_map]
    exact caseStandsFor_ofMarked hHeld hNone

/-
  A case name that is not empty stands for what the labels at
  the places of the list make of it. No label is cut inside a
  character when that is decided, and another order of the
  labels gives the same verdict, up to the order of the labels
  in it.
-/
theorem resolveCase_verdict
    (i : Interner)
    {names : List Nat}
    (hHeld : ∀ n ∈ names, n < i.size)
    {caseName : String}
    (hCase : caseName ≠ "")
    (marker : Char) :
    i.CaseStandsFor marker caseName names
      (resolveCase (names.map i.lookup) caseName marker) ∧
    (∀ label, endsMarkedInBytes? marker caseName label =
      some (endsMarked marker caseName label)) ∧
    ∀ others, names.Perm others →
      (resolveCase (names.map i.lookup) caseName marker).SameUpToOrder
        (resolveCase (others.map i.lookup) caseName marker) :=
  ⟨caseStandsFor_resolveCase hHeld hCase,
    endsMarkedInBytes?_eq marker caseName,
    fun _ hPerm => resolveCase_perm (hPerm.map i.lookup) hCase⟩

/- Labels outside the range of one byte. -/
def widths : Interner where
  texts := ["", "xßÄ", "ßÄ", "ÄÄ", "yßÄß"]
  nodup := by decide
  first := rfl

/- Two of the labels are marked, one with nothing in front. -/
theorem widths_verdict :
    (∀ n ∈ [4, 2, 3, 1], n < widths.size) ∧ "Ä" ≠ "" ∧
    resolveCase ([4, 2, 3, 1].map widths.lookup) "Ä" 'ß' =
      .ambiguous ["ßÄ", "xßÄ"] ∧
    widths.CaseStandsFor 'ß' "Ä" [4, 2, 3, 1] (.ambiguous ["ßÄ", "xßÄ"]) ∧
    endsMarkedInBytes? 'ß' "Ä" "xßÄ" = some true ∧
    (resolveCase ([4, 2, 3, 1].map widths.lookup) "Ä" 'ß').SameUpToOrder
      (resolveCase ([1, 2, 3, 4].map widths.lookup) "Ä" 'ß') := by
  have hHeld : ∀ n ∈ [4, 2, 3, 1], n < widths.size := by decide
  have hCase : "Ä" ≠ "" := by decide
  have hVerdict :
      resolveCase ([4, 2, 3, 1].map widths.lookup) "Ä" 'ß' =
        .ambiguous ["ßÄ", "xßÄ"] := by
    decide +kernel
  rcases widths.resolveCase_verdict hHeld hCase 'ß' with
    ⟨hStands, hBytes, hOrder⟩
  rw [hVerdict] at hStands
  refine ⟨hHeld, hCase, hVerdict, hStands, ?_, hOrder _ (by decide)⟩
  rw [hBytes]
  decide +kernel

end Interner

end MatchCompiler
