import MatchCompiler.Literal

/-
  This file defines the values that a compiled match runs on.

  References are transparent: a reference that is not nil is
  the object it points to. An object lists the name of its
  type and then those of its bases.

  Key definitions include:
    * `Value`
    * `Value.field?`
    * `Value.ordinal?`
    * `Value.equals`
    * `Value.ofLiteral`
-/

------------------------------------------------------------
-- Values
------------------------------------------------------------

namespace MatchCompiler

/- A value at run time. -/
inductive Value where
| nil
| int (value : Int)
| float (value : Double)
| bool (value : Bool)
| char (value : Char)
| str (text : String)
| sym (name : String)
| member (name : String) (ordinal : Int)
| object (typeChain : List String) (fields : List (String × Value))
| seq (items : List Value)
| tuple (items : List Value)
| map (entries : List (Value × Value))
| set (items : List Value)
| some (payload : Value)
| none

namespace Value

/- The first field of an object with a given name. -/
def field?
    (v : Value)
    (name : String) : Option Value :=
  match v with
  | .object _ fields => fields.lookup name
  | _ => Option.none

/- The items of what is read by position. -/
def items? : Value → Option (List Value)
| .seq items => Option.some items
| .tuple items => Option.some items
| _ => Option.none

/- Number of items of what is read by position. -/
def length? (v : Value) : Option Nat :=
  v.items?.map List.length

/- The number of an enumeration member or boolean. -/
def ordinal? : Value → Option Int
| .member _ ordinal => Option.some ordinal
| .bool b => Option.some (if b then 1 else 0)
| _ => Option.none

/-
  Whether a value equals a literal. A value of another kind
  does not; a float compares with an integer literal as with
  the nearest float.
-/
def equals : Value → Literal → Bool
| .int v, .int n _ => v == n
| .float v, .float x _ => v.same x
| .float v, .int n _ => v.same (Double.ofInt n)
| .bool v, .bool b => v == b
| .char v, .char c => v == c
| .str v, .str s => v == s
| .nil, .nil => true
| .none, .nil => true
| .member name _, .sym s => name == s
| .sym name, .sym s => name == s
| _, _ => false

/- What a value is called in a message. -/
def kindName : Value → String
| .nil => "nil"
| .int _ => "integer"
| .float _ => "float"
| .bool _ => "bool"
| .char _ => "char"
| .str _ => "string"
| .sym _ => "symbol"
| .member .. => "enumeration member"
| .object .. => "object"
| .seq _ => "sequence"
| .tuple _ => "tuple"
| .map _ => "map"
| .set _ => "set"
| .some _ => "optional"
| .none => "optional"

/- The value of a literal by itself. -/
def ofLiteral : Literal → Value
| .int n _ => .int n
| .float x _ => .float x
| .str s => .str s
| .char c => .char c
| .bool b => .bool b
| .nil => .nil
| .sym name => .sym name

end Value

end MatchCompiler
