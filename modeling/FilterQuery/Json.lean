/-!
# JSON text

The values that exports consist of and the two layouts of their text. The compact layout has no
blanks; the indented one puts each element on a line of its own, two columns deeper than what
holds it. Characters outside ASCII are written as they are.
-/
namespace FilterQuery

inductive Json
  | null
  | string (s : String)
  | array (items : List Json)
  /-- The fields are written in the order given. -/
  | object (fields : List (String × Json))
deriving Repr

namespace Json

inductive Layout
  | compact
  | indented
deriving DecidableEq, Repr

/-- What stands between a bracket or comma and an element at the given depth. -/
def Layout.newline : Layout → Nat → String
  | .compact, _ => ""
  | .indented, depth => "\n" ++ String.ofList (List.replicate (2 * depth) ' ')

/-- What stands between a key and its value. -/
def Layout.colon : Layout → String
  | .compact => ":"
  | .indented => ": "

/-- A character inside a quoted string. Quotes, backslashes and control characters are escaped. -/
def escape (c : Char) : List Char :=
  if c = '"' then ['\\', '"']
  else if c = '\\' then ['\\', '\\']
  else if c = '\x08' then ['\\', 'b']
  else if c = '\t' then ['\\', 't']
  else if c = '\n' then ['\\', 'n']
  else if c = '\x0c' then ['\\', 'f']
  else if c = '\r' then ['\\', 'r']
  else if c.toNat < 32 then
    ['\\', 'u', '0', '0', Nat.digitChar (c.toNat / 16), Nat.digitChar (c.toNat % 16)]
  else [c]

def quote (s : String) : String := "\"" ++ String.ofList (s.toList.flatMap escape) ++ "\""

mutual

/-- Writes a value that stands at the given depth behind `acc`. -/
def writeOnto (layout : Layout) (depth : Nat) (acc : String) : Json → String
  | .null => acc ++ "null"
  | .string s => acc ++ quote s
  | .array [] => acc ++ "[]"
  | .array (item :: items) =>
    writeItemsOnto layout (depth + 1)
      (writeOnto layout (depth + 1) (acc ++ "[" ++ layout.newline (depth + 1)) item) items
      ++ layout.newline depth ++ "]"
  | .object [] => acc ++ "\x7b\x7d"
  | .object ((key, value) :: fields) =>
    writeFieldsOnto layout (depth + 1)
      (writeOnto layout (depth + 1)
        (acc ++ "\x7b" ++ layout.newline (depth + 1) ++ quote key ++ layout.colon) value) fields
      ++ layout.newline depth ++ "\x7d"

/-- Writes the items behind the first one. -/
def writeItemsOnto (layout : Layout) (depth : Nat) (acc : String) : List Json → String
  | [] => acc
  | item :: items =>
    writeItemsOnto layout depth
      (writeOnto layout depth (acc ++ "," ++ layout.newline depth) item) items

/-- Writes the fields behind the first one. -/
def writeFieldsOnto (layout : Layout) (depth : Nat) (acc : String) :
    List (String × Json) → String
  | [] => acc
  | (key, value) :: fields =>
    writeFieldsOnto layout depth
      (writeOnto layout depth
        (acc ++ "," ++ layout.newline depth ++ quote key ++ layout.colon) value) fields

end

/-- The text of a value. -/
def render (layout : Layout) (j : Json) : String := writeOnto layout 0 "" j

end Json

end FilterQuery
