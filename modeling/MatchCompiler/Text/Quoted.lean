import MatchCompiler.Text.Printable

/-
  This file writes characters and texts between quotes.

  Only the quote that encloses is escaped; tab, carriage
  return, line feed, NUL and the backslash have short
  escapes; what cannot be shown is written by its code point
  in hexadecimal.

  Key definitions include:
    * `Text.escape`
    * `Text.quoted`
    * `Text.quotedChar`
-/

------------------------------------------------------------
-- Escapes
------------------------------------------------------------

namespace MatchCompiler

namespace Text

/- One character inside the given kind of quotes. -/
def escape
    (quote : Char)
    (c : Char) : List Char :=
  if c == quote || c == '\\' then
    ['\\', c]
  else if c.toNat == 0 then
    ['\\', '0']
  else if c == '\t' then
    ['\\', 't']
  else if c == '\r' then
    ['\\', 'r']
  else if c == '\n' then
    ['\\', 'n']
  else if isPlain c then
    [c]
  else
    ['\\', 'u', '\x7b'] ++ Nat.toDigits 16 c.toNat ++ ['\x7d']

/- The double quote, which encloses a text. -/
def textQuote : Char :=
  Char.ofNat 34

/- The single quote, which encloses a character. -/
def charQuote : Char :=
  Char.ofNat 39

/- A text between double quotes. -/
def quoted (s : String) : String :=
  String.ofList
    (textQuote :: s.toList.flatMap (escape textQuote) ++ [textQuote])

/- A character between single quotes. -/
def quotedChar (c : Char) : String :=
  String.ofList
    (charQuote :: escape charQuote c ++ [charQuote])

end Text

end MatchCompiler
