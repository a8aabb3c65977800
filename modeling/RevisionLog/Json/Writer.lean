import RevisionLog.Json
import RevisionLog.Text.Quoted

/-!
# Writing structured values

Values written without blanks, an object's members in order of their names. Of the characters of a
text only quotes, backslashes and controls are escaped.

* `Json.spell` — one character of a text.
* `Json.write` — a value.
-/

namespace RevisionLog.Json

/-- The spelling of one character of a text. -/
def spell (c : Char) : List Char :=
  if c = '"' then ['\\', '"']
  else if c = '\\' then ['\\', '\\']
  else if c = '\x08' then ['\\', 'b']
  else if c = '\x0c' then ['\\', 'f']
  else if c = '\n' then ['\\', 'n']
  else if c = '\r' then ['\\', 'r']
  else if c = '\t' then ['\\', 't']
  else if c.toNat < 0x20 then
    ['\\', 'u', '0', '0', Nat.digitChar (c.toNat / 16), Nat.digitChar (c.toNat % 16)]
  else [c]

/-- A text between quotes. -/
def writeString (s : String) : String :=
  String.ofList ('"' :: (s.toList.flatMap spell ++ ['"']))

/-- A number: its digits, and a power of ten where there is one. -/
def writeNumber (n : Numeral) : String :=
  (if n.negative then "-" else "") ++ toString n.digits ++
    (if n.whole then "" else "e" ++ toString n.power)

mutual

/-- A value without blanks. -/
def write : Json → String
  | null => "null"
  | bool b => if b then "true" else "false"
  | number n => writeNumber n
  | string s => writeString (s.getD "")
  | array items => "[" ++ ",".intercalate (writeItems items) ++ "]"
  | object members =>
    let written := (writeMembers members).mergeSort fun a b => a.1 ≤ b.1
    "\x7b" ++ ",".intercalate (written.map (·.2)) ++ "\x7d"

/-- The elements of an array, each written. -/
def writeItems : List Json → List String
  | [] => []
  | j :: js => write j :: writeItems js

/-- The members of an object, each with its name and written with it. -/
def writeMembers : List (Option String × Json) → List (String × String)
  | [] => []
  | (name, j) :: ms => (name.getD "", writeString (name.getD "") ++ ":" ++ write j) ::
      writeMembers ms

end

end RevisionLog.Json
