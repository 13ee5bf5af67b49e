/-
  This file finds the line and column of a byte offset.

  Key definitions include:
    * `SourcePosition`
    * `SourcePosition.ofOffset`
    * `SourcePosition.lines`
-/

------------------------------------------------------------
-- Byte Offsets
------------------------------------------------------------

namespace MatchCompiler

/-
  The characters in front of a byte offset; all of them when
  the offset lies past the end, none at all when it falls
  inside a character.
-/
def charsBefore? : Nat → List Char → Option (List Char)
| _, [] => some []
| n, c :: cs =>
    if n == 0 then
      some []
    else if c.utf8Size ≤ n then
      (charsBefore? (n - c.utf8Size) cs).map (c :: ·)
    else
      none

end MatchCompiler

------------------------------------------------------------
-- Lines And Columns
------------------------------------------------------------

namespace MatchCompiler

/- A line and a column, both counted from one. -/
structure SourcePosition where
  line : Nat
  column : Nat
deriving DecidableEq

namespace SourcePosition

/- The position just after some characters. -/
def after (before : List Char) : SourcePosition :=
  { line := before.count '\n' + 1
    column := (before.reverse.takeWhile (· != '\n')).length + 1 }

/-
  The position of a byte offset. An offset inside a character
  is taken for the end of the text.
-/
def ofOffset
    (source : String)
    (offset : Nat) : SourcePosition :=
  after ((charsBefore? offset source.toList).getD source.toList)

/- A line as read so far, last character first, made whole. -/
def closeLine : List Char → List Char
| '\r' :: rest => rest.reverse
| line => line.reverse

/-
  The lines of a text. A line feed ends a line, together with
  the carriage return in front of it; the last line need not
  be ended and then keeps all its characters.
-/
def linesFrom
    (line : List Char) :
    List Char → List (List Char)
| [] => if line.isEmpty then [] else [line.reverse]
| c :: rest =>
    if c == '\n' then
      closeLine line :: linesFrom [] rest
    else
      linesFrom (c :: line) rest

/- The lines of a source text. -/
def lines (source : String) : List (List Char) :=
  linesFrom [] source.toList

end SourcePosition

end MatchCompiler
