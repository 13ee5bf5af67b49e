import MatchCompiler.Pattern.Check
import MatchCompiler.Proofs.PrimitiveAliases

/-
  This file shows which numbers match which primitives.

  An integer without a suffix fits every integer type, and a
  float without a suffix every float type. A suffix fits just
  the type that it names, and a suffix that is a float type
  may stand behind an integer too. A number that fits is
  accepted unless it is an integer out of the range of its
  type, which is a problem of its own. All of this is so at
  the primitive itself and at every alias of it.

  Key definitions include:
    * `Literal.FitsWidth`
    * `Literal.InRange`
    * `Registry.JudgesNumbers`

  Key theorems include:
    * `checkPrimitive_of_fits`
    * `SchemaPool.checkLiteral_of_isPrimitive`
    * `Registry.numbers_judged`
-/

------------------------------------------------------------
-- Numbers And Primitives
------------------------------------------------------------

namespace MatchCompiler

/- An integer type has a value. -/
def Primitive.Spans
    (kind : Primitive)
    (n : Int) : Prop :=
  ∃ least greatest, kind.range = some (least, greatest) ∧
    least ≤ n ∧ n ≤ greatest

namespace Literal

/- An integer or a float, with or without a suffix. -/
inductive IsNumber : Literal → Prop
| int (n : Int) (suffix : Option Primitive) : IsNumber (.int n suffix)
| float (x : Double) (suffix : Option Primitive) :
    IsNumber (.float x suffix)

/- The family and the width of a number fit a primitive. -/
def FitsWidth
    (kind : Primitive) : Literal → Prop
| .int _ none => kind.isInteger = true
| .int _ (some width) =>
    (width.isInteger = true ∨ width.isFloat = true) ∧ width = kind
| .float _ none => kind.isFloat = true
| .float _ (some width) => width.isFloat = true ∧ width = kind
| _ => False

/- An integer type has the value of an integer. -/
def InRange
    (kind : Primitive) : Literal → Prop
| .int n _ => kind.isInteger = true → kind.Spans n
| _ => True

end Literal

namespace Primitive

variable {kind : Primitive}

/- No integer type is a float type. -/
theorem isFloat_eq_false
    (h : kind.isInteger = true) :
    kind.isFloat = false := by
  cases kind <;> first | rfl | cases h

/- Every integer type has a range. -/
theorem exists_range
    (h : kind.isInteger = true) :
    ∃ bounds, kind.range = some bounds := by
  cases kind <;> first | exact ⟨_, rfl⟩ | cases h

end Primitive

namespace Literal

variable {kind : Primitive}
variable {suffix : Option Primitive}

/- A float fits a float type, that of its suffix if any. -/
theorem fitsWidth_float_iff
    (x : Double) :
    (float x suffix).FitsWidth kind ↔
      kind.isFloat = true ∧ ∀ width ∈ suffix, width = kind := by
  cases suffix with
  | none => simp [FitsWidth]
  | some width =>
      simp only [FitsWidth, Option.mem_some_iff, forall_eq']
      exact and_congr_left fun hSame => by rw [hSame]

/- An integer with the suffix of a float type fits as a float. -/
theorem fitsWidth_int_iff_of_float
    (hFloat : suffix.any Primitive.isFloat = true)
    (n : Int) :
    (int n suffix).FitsWidth kind ↔
      kind.isFloat = true ∧ ∀ width ∈ suffix, width = kind := by
  cases suffix with
  | none => cases hFloat
  | some width =>
      have hWidth : width.isFloat = true := hFloat
      simp only [FitsWidth, Option.mem_some_iff, forall_eq']
      exact and_congr_left fun hSame => by simp [← hSame, hWidth]

/- Any other integer fits an integer type, that of its suffix. -/
theorem fitsWidth_int_iff
    (hFloat : suffix.any Primitive.isFloat ≠ true)
    (n : Int) :
    (int n suffix).FitsWidth kind ↔
      kind.isInteger = true ∧ ∀ width ∈ suffix, width = kind := by
  cases suffix with
  | none => simp [FitsWidth]
  | some width =>
      have hWidth : ¬ width.isFloat = true := hFloat
      simp only [FitsWidth, Option.mem_some_iff, forall_eq']
      exact and_congr_left fun hSame => by simp [← hSame, hWidth]

end Literal

section

variable {type : String}
variable {kind : Primitive}
variable {l : Literal}
variable {n : Int}

/- A number goes to a float type of its suffix, if any. -/
theorem checkFloat_eq :
    checkFloat type kind l =
      if kind.isFloat = true ∧ ∀ width ∈ l.suffix, width = kind then
        .ok (.value l)
      else
        .error (.mismatch l type) := by
  simp [checkFloat, Option.all_eq_true]

/- An integer type has the value, or its range is reported. -/
theorem checkInteger_of_fits
    (hKind : kind.isInteger = true)
    (hSuffix : ∀ width ∈ l.suffix, width = kind) :
    (kind.Spans n → checkInteger type kind l n = .ok (.value l)) ∧
    (¬ kind.Spans n →
      ∃ bounds,
        checkInteger type kind l n = .error (.outOfRange l kind bounds)) := by
  have hFits :
      (kind.isInteger && l.suffix.all (· == kind)) = true := by
    simpa [hKind, Option.all_eq_true] using hSuffix
  rcases Primitive.exists_range hKind with ⟨⟨least, greatest⟩, hRange⟩
  have hSpans : kind.Spans n ↔ least ≤ n ∧ n ≤ greatest := by
    simp [Primitive.Spans, hRange, ← and_assoc]
  unfold checkInteger
  rw [if_pos hFits, hRange, hSpans]
  refine ⟨fun hIn => ?_, fun hOut => ⟨(least, greatest), ?_⟩⟩
  · exact if_pos (by simpa using hIn)
  · exact if_neg (by simpa using hOut)

/- Any other integer is of another type. -/
theorem checkInteger_of_not_fits
    (h : ¬ (kind.isInteger = true ∧ ∀ width ∈ l.suffix, width = kind)) :
    checkInteger type kind l n = .error (.mismatch l type) := by
  unfold checkInteger
  refine if_neg ?_
  simpa [Option.all_eq_true] using h

/-
  A number is accepted by a primitive if it fits and is in
  range, is out of range if it fits only, and is of another
  type if it does not fit.
-/
theorem checkPrimitive_number
    (hNumber : l.IsNumber) :
    (l.FitsWidth kind → l.InRange kind →
      checkPrimitive type kind l = .ok (.value l)) ∧
    (l.FitsWidth kind → ¬ l.InRange kind →
      ∃ bounds,
        checkPrimitive type kind l =
          .error (.outOfRange l kind bounds)) ∧
    (¬ l.FitsWidth kind →
      checkPrimitive type kind l = .error (.mismatch l type)) := by
  cases hNumber with
  | int n suffix =>
      by_cases hFloat : suffix.any Primitive.isFloat = true
      · have hCheck :
            checkPrimitive type kind (.int n suffix) =
              checkFloat type kind (.int n suffix) := if_pos hFloat
        have hIff : (Literal.int n suffix).FitsWidth kind ↔ _ :=
          Literal.fitsWidth_int_iff_of_float hFloat n
        rw [hCheck, checkFloat_eq]
        refine ⟨fun hFits _ => if_pos (hIff.mp hFits),
          fun hFits hOut => absurd (fun hKind => ?_) hOut,
          fun hNot => if_neg fun hFits => hNot (hIff.mpr hFits)⟩
        -- A float type is no integer type, so that there is no range.
        have hNone := Primitive.isFloat_eq_false hKind
        rw [(hIff.mp hFits).1] at hNone
        cases hNone
      · have hCheck :
            checkPrimitive type kind (.int n suffix) =
              checkInteger type kind (.int n suffix) n := if_neg hFloat
        have hIff : (Literal.int n suffix).FitsWidth kind ↔ _ :=
          Literal.fitsWidth_int_iff hFloat n
        rw [hCheck]
        refine ⟨fun hFits hIn => ?_, fun hFits hOut => ?_,
          fun hNot => checkInteger_of_not_fits fun hFits =>
            hNot (hIff.mpr hFits)⟩
        · rcases hIff.mp hFits with ⟨hKind, hSuffix⟩
          exact (checkInteger_of_fits (l := .int n suffix) hKind hSuffix).1
            (hIn hKind)
        · rcases hIff.mp hFits with ⟨hKind, hSuffix⟩
          exact (checkInteger_of_fits (l := .int n suffix) hKind hSuffix).2
            fun hSpans => hOut fun _ => hSpans
  | float x suffix =>
      have hIff : (Literal.float x suffix).FitsWidth kind ↔ _ :=
        Literal.fitsWidth_float_iff x
      change (_ → _ → checkFloat type kind (.float x suffix) = _) ∧
        (_ → _ → ∃ bounds, checkFloat type kind (.float x suffix) = _) ∧
        (_ → checkFloat type kind (.float x suffix) = _)
      rw [checkFloat_eq]
      exact ⟨fun hFits _ => if_pos (hIff.mp hFits),
        fun _ hOut => absurd trivial hOut,
        fun hNot => if_neg fun hFits => hNot (hIff.mpr hFits)⟩

end

end MatchCompiler

------------------------------------------------------------
-- Literal Patterns
------------------------------------------------------------

namespace MatchCompiler

/- At a primitive a literal goes by the rules of primitives. -/
theorem SchemaPool.checkLiteral_of_isPrimitive
    {p : SchemaPool}
    {kind : Primitive}
    {slot : SchemaId}
    (h : (p.get slot).IsPrimitive kind)
    (marker : Char)
    (l : Literal) :
    p.checkLiteral marker slot l =
      checkPrimitive (p.nameOf slot) kind l := by
  have hReference : (p.get slot).isReference = false := by
    simp [Schema.isReference, h.isPrimitive]
  have hKind : (p.get slot).structuralKind = .primitive := by
    simp [Schema.structuralKind, h.isPrimitive]
  unfold checkLiteral Schema.checkLiteral
  simp only [hReference, Bool.and_false, Bool.false_eq_true, if_false,
    hKind, h.primitive]
  rfl

namespace CheckState

/-
  A literal pattern passes at a slot: nothing is reported, and
  the literal itself is what values are compared with.
-/
def Passes
    (s : CheckState)
    (ctx : CheckContext)
    (slot : SchemaId)
    (span : Span)
    (l : Literal) : Prop :=
  ((Pattern.literal span l).check ctx slot).run s =
    (.literal span (.value l), s)

/-
  A literal pattern is reported at a slot, as the one problem
  with it, under a code.
-/
def Reports
    (s : CheckState)
    (ctx : CheckContext)
    (slot : SchemaId)
    (span : Span)
    (l : Literal)
    (code : DiagnosticCode) : Prop :=
  ∃ problem : Problem, problem.diagnostic.code = code ∧
    ((Pattern.literal span l).check ctx slot).run s =
      (.wildcard span, { s with problems := s.problems ++ [problem] })

variable {s : CheckState}
variable {ctx : CheckContext}
variable {slot : SchemaId}
variable {span : Span}
variable {l : Literal}
variable {code code' : DiagnosticCode}

theorem Passes.not_reports
    (h : s.Passes ctx slot span l) :
    ¬ s.Reports ctx slot span l code := by
  rintro ⟨problem, -, hRun⟩
  cases (Prod.mk.inj (h.symm.trans hRun)).1

theorem Reports.unique
    (h : s.Reports ctx slot span l code)
    (h' : s.Reports ctx slot span l code') :
    code = code' := by
  rcases h with ⟨problem, rfl, hRun⟩
  rcases h' with ⟨problem', rfl, hRun'⟩
  have hState := (Prod.mk.inj (hRun.symm.trans hRun')).2
  have hProblems := congrArg CheckState.problems hState
  cases List.append_cancel_left hProblems
  rfl

/- What is done for a literal pattern. -/
theorem run_literal
    (ctx : CheckContext)
    (slot : SchemaId)
    (span : Span)
    (l : Literal)
    (s : CheckState) :
    ((Pattern.literal span l).check ctx slot).run s =
      match s.registry.pool.checkLiteral ctx.marker slot l with
      | .ok meaning => (.literal span meaning, s)
      | .error cause =>
          let problem :=
            Problem.literal span (s.registry.pool.nameOf slot) cause
          (.wildcard span,
            { s with problems := s.problems ++ [problem] }) := by
  have hPool :
      ((Pattern.literal span l).check ctx slot).run s =
        (match s.registry.pool.checkLiteral ctx.marker slot l with
        | .ok meaning => (pure (.literal span meaning) : Check Checked)
        | .error cause => do
            Check.reject span
              (.literal span (← Check.typeName slot) cause)).run s := by
    rw [Pattern.check]
    rfl
  rw [hPool]
  cases s.registry.pool.checkLiteral ctx.marker slot l <;> rfl

/- A literal with a meaning of its own passes. -/
theorem passes_of_checkLiteral
    (h : s.registry.pool.checkLiteral ctx.marker slot l =
      .ok (.value l)) :
    s.Passes ctx slot span l := by
  unfold Passes
  rw [run_literal, h]

/- A literal with a problem is reported under its code. -/
theorem reports_of_checkLiteral
    {cause : LiteralProblem}
    (h : s.registry.pool.checkLiteral ctx.marker slot l = .error cause) :
    s.Reports ctx slot span l cause.diagnostic.code := by
  refine ⟨.literal span (s.registry.pool.nameOf slot) cause, rfl, ?_⟩
  rw [run_literal, h]

end CheckState

end MatchCompiler

------------------------------------------------------------
-- The Law Of Numbers
------------------------------------------------------------

namespace MatchCompiler

/-
  Where a slot stands for a primitive, a number is accepted
  exactly if it fits and is in range. It is reported as out of
  range exactly if it fits only, and as one of another type
  exactly if it does not fit.
-/
structure Registry.JudgesNumbers
    (r : Registry)
    (kind : Primitive)
    (slot : SchemaId) : Prop where
  passes :
    ∀ (s : CheckState) ctx span l, s.registry = r → l.IsNumber →
      (s.Passes ctx slot span l ↔ l.FitsWidth kind ∧ l.InRange kind)
  outOfRange :
    ∀ (s : CheckState) ctx span l, s.registry = r → l.IsNumber →
      (s.Reports ctx slot span l .literalRange ↔
        l.FitsWidth kind ∧ ¬ l.InRange kind)
  mismatch :
    ∀ (s : CheckState) ctx span l, s.registry = r → l.IsNumber →
      (s.Reports ctx slot span l .literalMismatch ↔ ¬ l.FitsWidth kind)

namespace Registry

variable {t : TypeTable}
variable {r : Registry}
variable {kind : Primitive}
variable {slot : SchemaId}

/- At a primitive a number has one of three verdicts. -/
theorem verdict_of_isPrimitive
    (h : (r.get slot).IsPrimitive kind)
    {s : CheckState}
    (hRegistry : s.registry = r)
    (ctx : CheckContext)
    (span : Span)
    {l : Literal}
    (hNumber : l.IsNumber) :
    (l.FitsWidth kind ∧ l.InRange kind ∧ s.Passes ctx slot span l) ∨
    (l.FitsWidth kind ∧ ¬ l.InRange kind ∧
      s.Reports ctx slot span l .literalRange) ∨
    (¬ l.FitsWidth kind ∧ s.Reports ctx slot span l .literalMismatch) := by
  subst hRegistry
  have hCheck := SchemaPool.checkLiteral_of_isPrimitive h ctx.marker l
  rcases checkPrimitive_number hNumber with ⟨hAccepts, hRange, hMismatch⟩
  by_cases hFits : l.FitsWidth kind
  · by_cases hIn : l.InRange kind
    · exact .inl ⟨hFits, hIn, CheckState.passes_of_checkLiteral
        (hCheck.trans (hAccepts hFits hIn))⟩
    · rcases hRange hFits hIn with ⟨bounds, hEq⟩
      exact .inr (.inl ⟨hFits, hIn,
        CheckState.reports_of_checkLiteral (hCheck.trans hEq)⟩)
  · exact .inr (.inr ⟨hFits,
      CheckState.reports_of_checkLiteral
        (hCheck.trans (hMismatch hFits))⟩)

/- At a primitive numbers are judged by the law. -/
theorem judgesNumbers_of_isPrimitive
    (h : (r.get slot).IsPrimitive kind) :
    r.JudgesNumbers kind slot := by
  refine ⟨fun s ctx span l hRegistry hNumber => ?_,
    fun s ctx span l hRegistry hNumber => ?_,
    fun s ctx span l hRegistry hNumber => ?_⟩
  all_goals
    rcases verdict_of_isPrimitive h hRegistry ctx span hNumber with
      ⟨hFits, hIn, hPasses⟩ | ⟨hFits, hOut, hReports⟩ | ⟨hNot, hReports⟩
  · exact iff_of_true hPasses ⟨hFits, hIn⟩
  · exact iff_of_false (fun hPasses => hPasses.not_reports hReports)
      fun hBoth => hOut hBoth.2
  · exact iff_of_false (fun hPasses => hPasses.not_reports hReports)
      fun hBoth => hNot hBoth.1
  · exact iff_of_false hPasses.not_reports fun hBoth => hBoth.2 hIn
  · exact iff_of_true hReports ⟨hFits, hOut⟩
  · exact iff_of_false (fun hOther => nomatch hReports.unique hOther)
      fun hBoth => hNot hBoth.1
  · exact iff_of_false hPasses.not_reports fun hNot => hNot hFits
  · exact iff_of_false (fun hOther => nomatch hReports.unique hOther)
      fun hNot => hNot hFits
  · exact iff_of_true hReports hNot

/-
  In a registry that is built with a table, numbers are judged
  by the law at every slot that stands for a primitive, itself
  or through a chain of aliases. A type of the table that names
  a primitive after any number of aliases has such a slot.
-/
theorem numbers_judged
    (hBuilt : r.BuiltWith t) :
    (∀ kind slot, r.pool.StandsFor kind slot →
      r.JudgesNumbers kind slot) ∧
    ∀ kind n id, t.NamesAfter kind n id →
      (r.schemaOf t id).1.pool.StandsFor kind (r.schemaOf t id).2 ∧
      (r.schemaOf t id).1.JudgesNumbers kind (r.schemaOf t id).2 := by
  refine ⟨fun kind slot hStands => ?_, fun kind n id hNames => ?_⟩
  · exact judgesNumbers_of_isPrimitive
      (hBuilt.isPrimitive_of_standsFor hStands)
  · rcases hBuilt.schemaOf_standsFor hNames with ⟨hBuilt', hStands⟩
    exact ⟨hStands, judgesNumbers_of_isPrimitive
      (hBuilt'.isPrimitive_of_standsFor hStands)⟩

/- Bytes under further names, and two aliases of each other. -/
def renamedBytes : TypeTable :=
  { descriptors :=
      #[{ name := "byte", shape := .primitive .u8 },
        { name := "Octet", shape := .alias (.described 0) },
        { name := "Sample", shape := .alias (.described 1) },
        { name := "Loop", shape := .alias (.described 4) },
        { name := "Knot", shape := .alias (.described 3) }] }

/- The registry after one of the aliases in a circle. -/
def knottedRegistry : Registry :=
  ((extract? {} renamedBytes 4 3).map Prod.fst).getD {}

/-
  The circle does not matter to bytes: 255 is accepted, 256
  and -1 are out of range, and suffixes fit bytes only.
-/
theorem renamedBytes_judged :
    knottedRegistry.BuiltWith renamedBytes ∧
    ¬ knottedRegistry.pool.Acyclic ∧
    renamedBytes.NamesAfter .u8 2 2 ∧
    ∀ ctx span,
      let slot := (knottedRegistry.schemaOf renamedBytes 2).2
      let s : CheckState :=
        { registry := (knottedRegistry.schemaOf renamedBytes 2).1 }
      s.Passes ctx slot span (.int 255 none) ∧
      s.Passes ctx slot span (.int 255 (some .u8)) ∧
      s.Reports ctx slot span (.int 256 none) .literalRange ∧
      s.Reports ctx slot span (.int (-1) (some .u8)) .literalRange ∧
      s.Reports ctx slot span (.int 5 (some .i8)) .literalMismatch ∧
      s.Reports ctx slot span (.int 5 (some .f32)) .literalMismatch := by
  have hExtracts : Extracts {} renamedBytes 3 knottedRegistry 0 :=
    ⟨4, rfl⟩
  have hBuilt : knottedRegistry.BuiltWith renamedBytes :=
    .extract (.fresh 'k') hExtracts
  have hCircle : ¬ knottedRegistry.pool.Acyclic := by
    intro hAcyclic
    have hLoop : knottedRegistry.pool.Links 0 1 :=
      ⟨by decide, .inl (by decide)⟩
    have hKnot : knottedRegistry.pool.Links 1 0 :=
      ⟨by decide, .inl (by decide)⟩
    exact hAcyclic 0 (.head hLoop (.single hKnot))
  have hNames : renamedBytes.NamesAfter .u8 2 2 :=
    .aliasOf rfl (.aliasOf rfl (.primitive rfl))
  have hSpans : ∀ n, Primitive.u8.Spans n ↔ 0 ≤ n ∧ n ≤ 255 := by
    intro n
    simp [Primitive.Spans, Primitive.range, Primitive.unsignedRange]
  have hOut : ∀ n, ¬ (0 ≤ n ∧ n ≤ 255) →
      ∀ suffix, ¬ (Literal.int n suffix).InRange .u8 :=
    fun n hNot _ hIn => hNot ((hSpans n).mp (hIn rfl))
  have hJudges := ((numbers_judged hBuilt).2 .u8 2 2 hNames).2
  refine ⟨hBuilt, hCircle, hNames, fun ctx span => ⟨?_, ?_, ?_, ?_, ?_, ?_⟩⟩
  · refine (hJudges.passes _ ctx span _ rfl (.int _ _)).mpr ⟨rfl, fun _ => ?_⟩
    exact (hSpans 255).mpr (by decide)
  · refine (hJudges.passes _ ctx span _ rfl (.int _ _)).mpr
      ⟨⟨.inl rfl, rfl⟩, fun _ => ?_⟩
    exact (hSpans 255).mpr (by decide)
  · exact (hJudges.outOfRange _ ctx span _ rfl (.int _ _)).mpr
      ⟨rfl, hOut 256 (by decide) _⟩
  · exact (hJudges.outOfRange _ ctx span _ rfl (.int _ _)).mpr
      ⟨⟨.inl rfl, rfl⟩, hOut (-1) (by decide) _⟩
  · exact (hJudges.mismatch _ ctx span _ rfl (.int _ _)).mpr
      fun hFits => nomatch hFits.2
  · exact (hJudges.mismatch _ ctx span _ rfl (.int _ _)).mpr
      fun hFits => nomatch hFits.2

end Registry

end MatchCompiler
