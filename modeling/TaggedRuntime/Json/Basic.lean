import TaggedRuntime.Decimal.Shortest

/-! JSON values and their compact text.

An object is a list of fields in ascending order of their keys, each key once; `Json.insertField`
keeps it so, and a later field overrides an earlier one of the same key. The order of keys is that
of their characters, which is also the order of their UTF-8 bytes. The text has no blanks, and only
quotes, backslashes and control characters are escaped in it, so the text of any value is one line.
-/

namespace TaggedRuntime

/-- A JSON value. Integers and floating-point numbers are told apart. -/
inductive Json where
  | null
  | bool (b : Bool)
  | int (n : Int)
  | float (x : Binary64)
  | str (s : String)
  | array (items : List Json)
  | object (fields : List (String × Json))
  deriving Inhabited

namespace Json

/-- The fields with one added in its place, or overridden. -/
def insertField (key : String) (value : Json) : List (String × Json) → List (String × Json)
  | [] => [(key, value)]
  | (other, old) :: rest =>
    if key < other then (key, value) :: (other, old) :: rest
    else if key = other then (key, value) :: rest
    else (other, old) :: insertField key value rest

/-- The fields with others added on top of them in turn. -/
def extend (fields added : List (String × Json)) : List (String × Json) :=
  added.foldl (fun fields (key, value) => insertField key value fields) fields

/-- An object from fields in any order. -/
def ofFields (fields : List (String × Json)) : Json := .object (extend [] fields)

/-- The value of a field of an object. -/
def field? (key : String) : Json → Option Json
  | .object fields => fields.lookup key
  | _ => none

/-- A value that may be missing; what is missing is `null`. -/
def optional (encode : α → Json) : Option α → Json
  | some a => encode a
  | none => null

/-! ### Text -/

/-- A digit of the escape of a control character, in lower case. -/
def hexDigit (n : Nat) : Char := Nat.digitChar n

/-- One character inside quotes. The control characters with a name have a short escape. -/
def escape (c : Char) : List Char :=
  if c = '"' then ['\\', '"']
  else if c = '\\' then ['\\', '\\']
  else if c = '\x08' then ['\\', 'b']
  else if c = '\x0c' then ['\\', 'f']
  else if c = '\n' then ['\\', 'n']
  else if c = '\r' then ['\\', 'r']
  else if c = '\t' then ['\\', 't']
  else if c.toNat < 0x20 then
    ['\\', 'u', '0', '0', hexDigit (c.toNat / 16), hexDigit (c.toNat % 16)]
  else [c]

/-- A text in quotes. -/
def quote (s : String) : List Char := '"' :: s.toList.flatMap escape ++ ['"']

mutual

/-- The compact text of a value. A number that is not finite has no JSON text and is `null`. -/
def render : Json → List Char
  | .null => ['n', 'u', 'l', 'l']
  | .bool true => ['t', 'r', 'u', 'e']
  | .bool false => ['f', 'a', 'l', 's', 'e']
  | .int n => Decimal.ofInt n
  | .float x => if x.isFinite then Decimal.shortest x else ['n', 'u', 'l', 'l']
  | .str s => quote s
  | .array items => '[' :: renderItems items ++ [']']
  | .object fields => '{' :: renderFields fields ++ ['}']

/-- Items with a comma between any two. -/
def renderItems : List Json → List Char
  | [] => []
  | [item] => render item
  | item :: rest => render item ++ ',' :: renderItems rest

/-- Fields with a comma between any two. -/
def renderFields : List (String × Json) → List Char
  | [] => []
  | [(key, value)] => quote key ++ ':' :: render value
  | (key, value) :: rest => quote key ++ ':' :: render value ++ ',' :: renderFields rest

end

end Json

end TaggedRuntime
