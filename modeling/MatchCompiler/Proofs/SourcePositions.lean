import MatchCompiler.Diagnostic.Position
import Mathlib.Data.List.Induction
import Mathlib.Data.Prod.Lex
import Mathlib.Data.String.Basic

/-
  This file shows which positions are found for byte offsets.

  An offset falls in front of a character, past the end, or
  inside a character that takes several bytes. In front of a
  character the position counts the lines and the characters
  up to it, and further on in the text it is later. An offset
  inside a character is taken for the end of the text, so that
  it comes after all the characters that follow it.

  Key definitions include:
    * `SourcePosition.advance`
    * `SourcePosition.narrow`
    * `InsideCharacter`

  Key theorems include:
    * `charsBefore?_cases`
    * `SourcePosition.after_append_lt`
    * `insideCharacter_iff`
    * `SourcePosition.ofOffset_le_iff`
    * `SourcePosition.offsets_in_order`
-/

------------------------------------------------------------
-- Order Of Positions
------------------------------------------------------------

namespace MatchCompiler

namespace SourcePosition

/- Positions are ordered by line, then by column. -/
instance : LinearOrder SourcePosition :=
  LinearOrder.lift' (fun p => toLex (p.line, p.column)) (by
    rintro ⟨line, column⟩ ⟨line', column'⟩ hSame
    have hPair : (line, column) = (line', column') :=
      toLex.injective hSame
    cases hPair
    rfl)

variable {p q : SourcePosition}

theorem le_iff :
    p ≤ q ↔ p.line < q.line ∨ p.line = q.line ∧ p.column ≤ q.column :=
  Prod.Lex.le_iff

theorem lt_iff :
    p < q ↔ p.line < q.line ∨ p.line = q.line ∧ p.column < q.column :=
  Prod.Lex.lt_iff

/- The position after one more character. -/
def advance
    (p : SourcePosition)
    (c : Char) : SourcePosition :=
  if c = '\n' then
    { line := p.line + 1, column := 1 }
  else
    { p with column := p.column + 1 }

theorem lt_advance
    (p : SourcePosition)
    (c : Char) :
    p < p.advance c := by
  rw [lt_iff]
  unfold advance
  split
  · exact .inl (Nat.lt_succ_self _)
  · exact .inr ⟨rfl, Nat.lt_succ_self _⟩

theorem after_concat
    (before : List Char)
    (c : Char) :
    after (before ++ [c]) = (after before).advance c := by
  unfold after advance
  by_cases hLine : c = '\n'
  · simp [hLine]
  · simp [hLine]

/- Further on in a text the position is later. -/
theorem after_append_lt
    (before : List Char)
    (c : Char)
    (rest : List Char) :
    after before < after (before ++ c :: rest) := by
  induction rest generalizing before c with
  | nil =>
      rw [after_concat]
      exact lt_advance _ c
  | cons d rest ih =>
      have hNext : after before < after (before ++ [c]) := by
        rw [after_concat]
        exact lt_advance _ c
      have hRest := ih (before ++ [c]) d
      rw [List.append_assoc, List.singleton_append] at hRest
      exact lt_trans hNext hRest

theorem after_le_of_prefix
    {before cs : List Char}
    (h : before <+: cs) :
    after before ≤ after cs := by
  rcases h with ⟨rest, rfl⟩
  cases rest with
  | nil => rw [List.append_nil]
  | cons c rest => exact le_of_lt (after_append_lt before c rest)

/- The characters of the last line are counted by the column. -/
theorem exists_lastLine
    (before : List Char) :
    ∃ front tail, before = front ++ tail ∧
      (front = [] ∨ ∃ lines, front = lines ++ ['\n']) ∧ '\n' ∉ tail ∧
      after before =
        { line := before.count '\n' + 1, column := tail.length + 1 } := by
  induction before using List.reverseRecOn with
  | nil => exact ⟨[], [], rfl, .inl rfl, List.not_mem_nil, rfl⟩
  | append_singleton before c ih =>
      by_cases hLine : c = '\n'
      · subst hLine
        refine ⟨before ++ ['\n'], [], (List.append_nil _).symm,
          .inr ⟨before, rfl⟩, List.not_mem_nil, ?_⟩
        rw [after_concat]
        simp [advance, after]
      · rcases ih with ⟨front, tail, hSplit, hFront, hTail, hAfter⟩
        refine ⟨front, tail ++ [c], ?_, hFront, ?_, ?_⟩
        · rw [hSplit, List.append_assoc]
        · simp [hTail, Ne.symm hLine]
        · rw [after_concat, hAfter]
          simp [advance, hLine]

/- Lines and columns count characters, each of them once. -/
theorem line_add_column_after_le
    (before : List Char) :
    (after before).line + (after before).column ≤ before.length + 2 := by
  induction before using List.reverseRecOn with
  | nil => exact Nat.le_refl _
  | append_singleton before c ih =>
      rw [after_concat, List.length_append, List.length_singleton]
      unfold advance
      split
      · have hColumn : 1 ≤ (after before).column := Nat.le_add_left 1 _
        dsimp only
        omega
      · dsimp only
        omega

end SourcePosition

end MatchCompiler

------------------------------------------------------------
-- Where Offsets Fall
------------------------------------------------------------

namespace MatchCompiler

/- A character is in front of an offset if it fits. -/
theorem charsBefore?_cons
    {c : Char}
    (cs : List Char)
    {n : Nat}
    (h : c.utf8Size ≤ n) :
    charsBefore? n (c :: cs) =
      (charsBefore? (n - c.utf8Size) cs).map (c :: ·) := by
  have hPos := c.utf8Size_pos
  have hNe : ¬ n = 0 := by omega
  simp [charsBefore?, hNe, h]

/- The characters in front of an offset between characters. -/
theorem charsBefore?_append
    (before rest : List Char) :
    charsBefore? (String.utf8Len before) (before ++ rest) = some before := by
  induction before with
  | nil =>
      cases rest with
      | nil => rfl
      | cons c rest => simp [charsBefore?]
  | cons c before ih =>
      have hFits : c.utf8Size ≤ String.utf8Len (c :: before) :=
        Nat.le_add_left _ _
      rw [List.cons_append, charsBefore?_cons _ hFits, String.utf8Len_cons,
        Nat.add_sub_cancel, ih]
      rfl

/- All characters are in front of an offset past the end. -/
theorem charsBefore?_of_le
    {cs : List Char}
    {n : Nat}
    (h : String.utf8Len cs ≤ n) :
    charsBefore? n cs = some cs := by
  induction cs generalizing n with
  | nil => rfl
  | cons c cs ih =>
      rw [String.utf8Len_cons] at h
      have hFits : c.utf8Size ≤ n := by omega
      rw [charsBefore?_cons cs hFits, ih (by omega)]
      rfl

/- No characters are in front of an offset inside a character. -/
theorem charsBefore?_inside
    (before : List Char)
    {c : Char}
    (rest : List Char)
    {n : Nat}
    (hPos : 0 < n)
    (hLt : n < c.utf8Size) :
    charsBefore? (String.utf8Len before + n) (before ++ c :: rest) =
      none := by
  induction before with
  | nil =>
      have hNe : ¬ n = 0 := by omega
      have hFits : ¬ c.utf8Size ≤ n := by omega
      simp [charsBefore?, hNe, hFits]
  | cons d before ih =>
      have hFits : d.utf8Size ≤ String.utf8Len (d :: before) + n := by
        rw [String.utf8Len_cons]
        omega
      have hRest :
          String.utf8Len (d :: before) + n - d.utf8Size =
            String.utf8Len before + n := by
        rw [String.utf8Len_cons]
        omega
      rw [List.cons_append, charsBefore?_cons _ hFits, hRest, ih]
      rfl

/-
  An offset falls past the end, or in front of a character, or
  inside one.
-/
theorem charsBefore?_cases
    (cs : List Char)
    (n : Nat) :
    String.utf8Len cs ≤ n ∨
    (∃ before c rest, cs = before ++ c :: rest ∧
      n = String.utf8Len before) ∨
    ∃ before c rest m, cs = before ++ c :: rest ∧ 0 < m ∧
      m < c.utf8Size ∧ n = String.utf8Len before + m := by
  induction cs generalizing n with
  | nil => exact .inl (Nat.zero_le n)
  | cons c cs ih =>
      by_cases hStart : n = 0
      · exact .inr (.inl ⟨[], c, cs, rfl, hStart⟩)
      · by_cases hFits : c.utf8Size ≤ n
        · rcases ih (n - c.utf8Size) with
            hEnd | ⟨before, d, rest, rfl, hFront⟩ |
            ⟨before, d, rest, m, rfl, hPos, hLt, hInside⟩
          · left
            rw [String.utf8Len_cons]
            omega
          · refine .inr (.inl ⟨c :: before, d, rest, rfl, ?_⟩)
            rw [String.utf8Len_cons]
            omega
          · refine .inr (.inr ⟨c :: before, d, rest, m, rfl, hPos, hLt, ?_⟩)
            rw [String.utf8Len_cons]
            omega
        · refine .inr (.inr ⟨[], c, cs, n, rfl, ?_, ?_, ?_⟩)
          · omega
          · omega
          · rw [String.utf8Len_nil, Nat.zero_add]

/- An offset falls inside a character of a text. -/
def InsideCharacter
    (source : String)
    (offset : Nat) : Prop :=
  ∃ (before : String) (c : Char) (rest : String),
    source = before ++ String.singleton c ++ rest ∧
    before.utf8ByteSize < offset ∧
    offset < before.utf8ByteSize + c.utf8Size

theorem length_le_utf8Len
    (cs : List Char) :
    cs.length ≤ String.utf8Len cs := by
  induction cs with
  | nil => exact Nat.le_refl _
  | cons c cs ih =>
      have hPos := c.utf8Size_pos
      rw [List.length_cons, String.utf8Len_cons]
      omega

theorem utf8Len_toList
    (source : String) :
    String.utf8Len source.toList = source.utf8ByteSize := by
  rw [← String.utf8ByteSize_ofList, String.ofList_toList]

/- Inside a character, and only there, nothing can be cut. -/
theorem insideCharacter_iff
    {source : String}
    {offset : Nat} :
    InsideCharacter source offset ↔
      charsBefore? offset source.toList = none := by
  constructor
  · rintro ⟨before, c, rest, rfl, hLow, hHigh⟩
    have hInside := charsBefore?_inside before.toList (c := c) rest.toList
      (n := offset - before.utf8ByteSize) (by omega) (by omega)
    rw [utf8Len_toList, Nat.add_sub_cancel' (Nat.le_of_lt hLow)] at hInside
    simpa only [String.toList_append, String.toList_singleton,
      List.append_assoc, List.singleton_append] using hInside
  · intro hNone
    rcases charsBefore?_cases source.toList offset with
      hEnd | ⟨before, c, rest, hSplit, rfl⟩ |
      ⟨before, c, rest, m, hSplit, hPos, hLt, rfl⟩
    · rw [charsBefore?_of_le hEnd] at hNone
      cases hNone
    · rw [hSplit, charsBefore?_append] at hNone
      cases hNone
    · refine ⟨String.ofList before, c, String.ofList rest, ?_, ?_, ?_⟩
      · apply String.toList_inj.mp
        simp [hSplit]
      · rw [String.utf8ByteSize_ofList]
        omega
      · rw [String.utf8ByteSize_ofList]
        omega

instance
    (source : String)
    (offset : Nat) :
    Decidable (InsideCharacter source offset) :=
  decidable_of_iff _ insideCharacter_iff.symm

end MatchCompiler

------------------------------------------------------------
-- Positions Of Offsets
------------------------------------------------------------

namespace MatchCompiler

namespace SourcePosition

variable {source : String}
variable {a b : Nat}

theorem ofOffset_of_le
    (h : source.utf8ByteSize ≤ a) :
    ofOffset source a = after source.toList := by
  unfold ofOffset
  rw [charsBefore?_of_le (utf8Len_toList source ▸ h)]
  rfl

/- An offset inside a character is taken for the end. -/
theorem ofOffset_of_inside
    (h : InsideCharacter source a) :
    ofOffset source a = after source.toList := by
  unfold ofOffset
  rw [insideCharacter_iff.mp h]
  rfl

theorem ofOffset_of_split
    {before rest : List Char}
    (h : source.toList = before ++ rest) :
    ofOffset source (String.utf8Len before) = after before := by
  unfold ofOffset
  rw [h, charsBefore?_append]
  rfl

/-
  Any other offset falls in front of a character, where the
  text is not at its end.
-/
theorem exists_split
    (hInside : ¬ InsideCharacter source a)
    (hEnd : ¬ source.utf8ByteSize ≤ a) :
    ∃ before c rest, source.toList = before ++ c :: rest ∧
      a = String.utf8Len before ∧ ofOffset source a = after before := by
  rcases charsBefore?_cases source.toList a with
    hLe | ⟨before, c, rest, hSplit, rfl⟩ |
    ⟨before, c, rest, m, hSplit, hPos, hLt, rfl⟩
  · rw [utf8Len_toList] at hLe
    exact absurd hLe hEnd
  · exact ⟨before, c, rest, hSplit, rfl, ofOffset_of_split hSplit⟩
  · apply absurd _ hInside
    rw [insideCharacter_iff, hSplit]
    exact charsBefore?_inside before rest hPos hLt

/- No position is later than the end. -/
theorem ofOffset_le_end
    (source : String)
    (a : Nat) :
    ofOffset source a ≤ after source.toList := by
  by_cases hInside : InsideCharacter source a
  · rw [ofOffset_of_inside hInside]
  · by_cases hEnd : source.utf8ByteSize ≤ a
    · rw [ofOffset_of_le hEnd]
    · rcases exists_split hInside hEnd with
        ⟨before, c, rest, hSplit, -, hPosition⟩
      rw [hPosition, hSplit]
      exact le_of_lt (after_append_lt before c rest)

/- Of two beginnings the one with fewer bytes is shorter. -/
theorem prefix_of_utf8Len_le
    {before before' cs : List Char}
    (h : before <+: cs)
    (h' : before' <+: cs)
    (hLe : String.utf8Len before ≤ String.utf8Len before') :
    before <+: before' := by
  rcases List.prefix_or_prefix_of_prefix h h' with hPrefix | ⟨rest, rfl⟩
  · exact hPrefix
  · rw [String.utf8Len_append] at hLe
    have hRest : String.utf8Len rest = 0 := by omega
    refine ⟨[], ?_⟩
    rw [String.utf8Len_eq_zero.mp hRest, List.append_nil, List.append_nil]

/- Offsets that are not inside a character are in order. -/
theorem ofOffset_le_of_not_inside
    (hLe : a ≤ b)
    (hInside : ¬ InsideCharacter source a) :
    ofOffset source a ≤ ofOffset source b := by
  by_cases hEnd : source.utf8ByteSize ≤ a
  · rw [ofOffset_of_le hEnd, ofOffset_of_le (hEnd.trans hLe)]
  · by_cases hInside' : InsideCharacter source b
    · rw [ofOffset_of_inside hInside']
      exact ofOffset_le_end source a
    · by_cases hEnd' : source.utf8ByteSize ≤ b
      · rw [ofOffset_of_le hEnd']
        exact ofOffset_le_end source a
      · rcases exists_split hInside hEnd with
          ⟨before, c, rest, hSplit, rfl, hPosition⟩
        rcases exists_split hInside' hEnd' with
          ⟨before', c', rest', hSplit', rfl, hPosition'⟩
        rw [hPosition, hPosition']
        apply after_le_of_prefix
        exact prefix_of_utf8Len_le ⟨c :: rest, hSplit.symm⟩
          ⟨c' :: rest', hSplit'.symm⟩ hLe

/-
  Two offsets are in order, unless the first falls inside a
  character and the second in front of a later one.
-/
theorem ofOffset_le_iff
    (hLe : a ≤ b) :
    ofOffset source a ≤ ofOffset source b ↔
      (InsideCharacter source a →
        InsideCharacter source b ∨ source.utf8ByteSize ≤ b) := by
  constructor
  · intro hOrder hInside
    by_contra hNot
    rw [not_or] at hNot
    rcases exists_split hNot.1 hNot.2 with
      ⟨before, c, rest, hSplit, -, hPosition⟩
    rw [ofOffset_of_inside hInside, hPosition, hSplit] at hOrder
    exact absurd hOrder (not_le_of_gt (after_append_lt before c rest))
  · intro hKept
    by_cases hInside : InsideCharacter source a
    · rw [ofOffset_of_inside hInside]
      rcases hKept hInside with hInside' | hEnd
      · rw [ofOffset_of_inside hInside']
      · rw [ofOffset_of_le hEnd]
    · exact ofOffset_le_of_not_inside hLe hInside

/- The greatest number of 32 bits. -/
def maxCount : Nat :=
  4294967295

/- A position in numbers of 32 bits, greater ones cut down. -/
def narrow (p : SourcePosition) : SourcePosition :=
  { line := min p.line maxCount
    column := min p.column maxCount }

/-
  Cutting down keeps the order if what is cut down from the
  first position is at most its line, in the first column.
-/
theorem narrow_le_narrow
    {p q : SourcePosition}
    (hOrder : p ≤ q)
    (hFew : p.line + p.column ≤ maxCount + 1)
    (hColumn : 1 ≤ q.column) :
    p.narrow ≤ q.narrow := by
  rw [le_iff] at hOrder ⊢
  unfold narrow maxCount
  unfold maxCount at hFew
  dsimp only
  omega

/-
  Offsets of 32 bits that are not inside a character are in
  order, no matter how long the text is.
-/
theorem narrow_ofOffset_le
    (hLe : a ≤ b)
    (hFits : b ≤ maxCount)
    (hInside : ¬ InsideCharacter source a) :
    (ofOffset source a).narrow ≤ (ofOffset source b).narrow := by
  by_cases hEnd : source.utf8ByteSize ≤ a
  · rw [ofOffset_of_le hEnd, ofOffset_of_le (hEnd.trans hLe)]
  · by_cases hSame : a = b
    · rw [hSame]
    · apply narrow_le_narrow (ofOffset_le_of_not_inside hLe hInside)
      · rcases exists_split hInside hEnd with
          ⟨before, c, rest, -, hBytes, hPosition⟩
        rw [hPosition]
        have hCounts := line_add_column_after_le before
        have hLength : before.length ≤ String.utf8Len before :=
          length_le_utf8Len before
        omega
      · exact Nat.le_add_left 1 _

/-
  In front of a character, or at the end, the line is found
  by the line feeds before it, and the column by what follows
  the last of them.
-/
theorem ofOffset_append
    (before rest : String) :
    ∃ front tail : String, before = front ++ tail ∧
      (front = "" ∨ ∃ lines, front = lines ++ "\n") ∧
      '\n' ∉ tail.toList ∧
      ofOffset (before ++ rest) before.utf8ByteSize =
        { line := before.toList.count '\n' + 1
          column := tail.length + 1 } := by
  rcases exists_lastLine before.toList with
    ⟨front, tail, hSplit, hFront, hTail, hAfter⟩
  refine ⟨String.ofList front, String.ofList tail, ?_, ?_, ?_, ?_⟩
  · apply String.toList_inj.mp
    simp [hSplit]
  · rcases hFront with rfl | ⟨lines, rfl⟩
    · exact .inl rfl
    · refine .inr ⟨String.ofList lines, ?_⟩
      apply String.toList_inj.mp
      simp
  · rw [String.toList_ofList]
    exact hTail
  · rw [← utf8Len_toList, ofOffset_of_split String.toList_append, hAfter,
      String.length_ofList]

/-
  Two offsets are found at positions in order, unless the
  first is inside a character and the second in front of a
  later one. This also holds for counts of 32 bits. At the
  boundary of a character the position counts the line feeds
  before it and the characters since the last of them.
-/
theorem offsets_in_order
    (source : String) :
    (∀ a b, a ≤ b →
      (ofOffset source a ≤ ofOffset source b ↔
        (InsideCharacter source a →
          InsideCharacter source b ∨ source.utf8ByteSize ≤ b))) ∧
    (∀ a b, a ≤ b → b ≤ maxCount → ¬ InsideCharacter source a →
      (ofOffset source a).narrow ≤ (ofOffset source b).narrow) ∧
    ∀ before rest, source = before ++ rest →
      ∃ front tail : String, before = front ++ tail ∧
        (front = "" ∨ ∃ lines, front = lines ++ "\n") ∧
        '\n' ∉ tail.toList ∧
        ofOffset source before.utf8ByteSize =
          { line := before.toList.count '\n' + 1
            column := tail.length + 1 } := by
  refine ⟨fun a b hLe => ofOffset_le_iff hLe,
    fun a b hLe hFits hInside => narrow_ofOffset_le hLe hFits hInside,
    fun before rest hSource => ?_⟩
  rw [hSource]
  exact ofOffset_append before rest

/-
  The second line feed and an offset inside the last character
  are in order.
-/
theorem accentedLines_in_order :
    2 ≤ 6 ∧ 6 ≤ maxCount ∧ ¬ InsideCharacter "é\n\nxé" 2 ∧
    InsideCharacter "é\n\nxé" 6 ∧
    ofOffset "é\n\nxé" 2 ≤ ofOffset "é\n\nxé" 6 ∧
    (ofOffset "é\n\nxé" 2).narrow ≤ (ofOffset "é\n\nxé" 6).narrow ∧
    ∃ front tail : String, "é\n\nx" = front ++ tail ∧
      '\n' ∉ tail.toList ∧
      ofOffset "é\n\nxé" "é\n\nx".utf8ByteSize =
        { line := 3, column := tail.length + 1 } := by
  have hFirst : ¬ InsideCharacter "é\n\nxé" 2 := by decide
  have hSecond : InsideCharacter "é\n\nxé" 6 := by decide
  rcases offsets_in_order "é\n\nxé" with ⟨hOrder, hNarrow, hPlace⟩
  rcases hPlace "é\n\nx" "é" rfl with
    ⟨front, tail, hSplit, -, hTail, hPosition⟩
  exact ⟨by decide, by decide, hFirst, hSecond,
    (hOrder 2 6 (by decide)).mpr fun hInside => absurd hInside hFirst,
    hNarrow 2 6 (by decide) (by decide) hFirst,
    front, tail, hSplit, hTail, hPosition⟩

/-
  An offset inside the first character comes after the line
  feed that follows it.
-/
theorem insideAccent_out_of_order :
    ¬ ∀ (source : String) (a b : Nat), a ≤ b →
      ofOffset source a ≤ ofOffset source b := by
  intro h
  have hOrder := h "é\nx" 1 2 (by decide)
  rw [le_iff] at hOrder
  exact absurd hOrder (by decide)

end SourcePosition

end MatchCompiler
