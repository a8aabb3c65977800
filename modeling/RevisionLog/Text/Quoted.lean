import RevisionLog.Text.Unprintable

/-!
# Quoted text

How messages quote a text: between double quotes, with a backslash before a quote or a backslash,
short names for NUL, tab and the line ends, and the code point of every other character without a
shape of its own.

* `Text.spell` — one character between quotes.
* `Text.quote` — a whole text.
* `Text.quoteList` — several, between brackets.
-/

namespace RevisionLog.Text

/-- The code point of a character in lower-case hexadecimal digits. -/
def hexDigits (c : Char) : List Char := Nat.toDigits 16 c.toNat

/-- The spelling of one character between quotes. -/
def spell (c : Char) : List Char :=
  if c = '"' then ['\\', '"']
  else if c = '\\' then ['\\', '\\']
  else if c = '\t' then ['\\', 't']
  else if c = '\r' then ['\\', 'r']
  else if c = '\n' then ['\\', 'n']
  else if c = '\x00' then ['\\', '0']
  else if isUnprintable c then ['\\', 'u', '\x7b'] ++ hexDigits c ++ ['\x7d']
  else [c]

/-- A text between quotes. -/
def quote (s : String) : String :=
  String.ofList ('"' :: (s.toList.flatMap spell ++ ['"']))

/-- Quoted texts between brackets. -/
def quoteList (ss : List String) : String :=
  "[" ++ ", ".intercalate (ss.map quote) ++ "]"

end RevisionLog.Text
