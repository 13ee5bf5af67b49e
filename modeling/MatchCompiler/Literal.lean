import MatchCompiler.Number.Shortest
import MatchCompiler.Primitive
import MatchCompiler.Text.Quoted

/-
  This file defines literals, which stand in patterns, in
  the declared defaults of sequence slots and in the tests
  of a compiled match.

  Key definitions include:
    * `Literal`
    * `Literal.suffix`
    * `Literal.category`
    * `Literal.text`
-/

------------------------------------------------------------
-- Literals
------------------------------------------------------------

namespace MatchCompiler

/-
  A literal as written. The suffix of a number pins one
  exact width. Floats are told apart by their bits, so that
  equality of literals is equality of what was written.
-/
inductive Literal where
| int (value : Int) (suffix : Option Primitive)
| float (value : Double) (suffix : Option Primitive)
| str (text : String)
| char (value : Char)
| bool (value : Bool)
| nil
| sym (name : String)
deriving DecidableEq, Inhabited

namespace Literal

/- The width that a numeric literal pins. -/
def suffix : Literal → Option Primitive
| .int _ s => s
| .float _ s => s
| _ => none

/- What a literal is called in a message. -/
def category : Literal → String
| .int .. => "integer literal"
| .float .. => "float literal"
| .str _ => "string literal"
| .char _ => "char literal"
| .bool _ => "bool literal"
| .nil => "`nil`"
| .sym _ => "symbol"

end Literal

end MatchCompiler

------------------------------------------------------------
-- Text
------------------------------------------------------------

namespace MatchCompiler

namespace Literal

/-
  Floats from a ten-thousandth up to, and without, ten to
  the sixteenth are written positionally.
-/
def floatStyle : FloatStyle :=
  { least := -4
    greatest := 15
    mark := "e"
    notANumber := "NaN"
    infinity := "inf" }

/- A width suffix follows its number after a tick. -/
def suffixText : Option Primitive → String
| none => ""
| some p => "'" ++ p.name

/- A literal the way it is written in a pattern. -/
def text : Literal → String
| .int n s => toString n ++ suffixText s
| .float x s => x.render floatStyle ++ suffixText s
| .str t => Text.quoted t
| .char c => Text.quotedChar c
| .bool b => if b then "true" else "false"
| .nil => "nil"
| .sym name => name

end Literal

end MatchCompiler
