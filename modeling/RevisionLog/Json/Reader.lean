import RevisionLog.Json
import RevisionLog.Text.Octets

/-!
# Reading structured values

A strict reader: one value with blanks around it takes up the whole text, an array or object has no
comma behind its last element, a text holds no bare control character, and a number has no needless
zero in front.

* `Json.Reader.value` — a value and what follows it.
* `Json.read?` — a whole text.
-/

namespace RevisionLog.Json

namespace Reader

/-- Whether a character is a blank between values. -/
def isBlank (c : Char) : Bool := c = ' ' || c = '\t' || c = '\n' || c = '\r'

/-- What follows the blanks in front. -/
def skip (cs : List Char) : List Char := cs.dropWhile isBlank

/-- The number four hexadecimal digits stand for. -/
def unit? (a b c d : Char) : Option Nat := do
  some (((← Text.hexValue? a) * 16 + (← Text.hexValue? b)) * 256 +
    ((← Text.hexValue? c) * 16 + (← Text.hexValue? d)))

/-- The character a letter behind a backslash stands for. -/
def escaped? : Char → Option Char
  | '"' => some '"'
  | '\\' => some '\\'
  | '/' => some '/'
  | 'b' => some '\x08'
  | 'f' => some '\x0c'
  | 'n' => some '\n'
  | 'r' => some '\r'
  | 't' => some '\t'
  | _ => none

/-- One element of a text: a character, or a 16-bit unit given by number. -/
inductive Element
  | char (c : Char)
  | unit (n : Nat)

/-- The elements of a text up to the quote that ends it, and what follows. -/
def elements : List Char → Option (List Element × List Char)
  | [] => none
  | '"' :: cs => some ([], cs)
  | '\\' :: 'u' :: a :: b :: c :: d :: cs =>
    match unit? a b c d with
    | none => none
    | some n => (elements cs).map fun (es, rest) => (.unit n :: es, rest)
  | '\\' :: e :: cs =>
    match escaped? e with
    | none => none
    | some c => (elements cs).map fun (es, rest) => (.char c :: es, rest)
  | c :: cs =>
    if c = '\\' || c.toNat < 0x20 then none
    else (elements cs).map fun (es, rest) => (.char c :: es, rest)

/-- The characters of a text. Two units that form a surrogate pair are one character; half a pair
makes the text unreadable. -/
def join : List Element → Option (List Char)
  | [] => some []
  | .char c :: es => (join es).map (c :: ·)
  | .unit n :: es =>
    if 0xd800 ≤ n ∧ n < 0xdc00 then
      match es with
      | .unit m :: es =>
        if 0xdc00 ≤ m ∧ m < 0xe000 then
          (join es).map (Char.ofNat (0x10000 + (n - 0xd800) * 0x400 + (m - 0xdc00)) :: ·)
        else none
      | _ => none
    else if 0xdc00 ≤ n ∧ n < 0xe000 then none
    else (join es).map (Char.ofNat n :: ·)

/-- A text behind its opening quote, and what follows it. -/
def text (cs : List Char) : Option (Option String × List Char) :=
  (elements cs).map fun (es, rest) => ((join es).map String.ofList, rest)

/-- Digits, at least one, and what follows them. -/
def digits? (cs : List Char) : Option (List Char × List Char) :=
  let (ds, rest) := cs.span Char.isDigit
  if ds.isEmpty then none else some (ds, rest)

/-- Whole digits: a zero alone, or digits with none in front. -/
def wholeDigits? (cs : List Char) : Option (List Char × List Char) :=
  match cs with
  | '0' :: rest => some (['0'], rest)
  | cs => digits? cs

/-- A point and the digits behind it, where there is a point. -/
def fraction? (cs : List Char) : Option (Option (List Char) × List Char) :=
  match cs with
  | '.' :: rest => (digits? rest).map fun (ds, rest) => (some ds, rest)
  | cs => some (none, cs)

/-- A power of ten, where there is one. -/
def power? (cs : List Char) : Option (Option Int × List Char) :=
  match cs with
  | c :: rest =>
    if c = 'e' || c = 'E' then
      let (negative, rest) := Numeral.takeSign rest
      (digits? rest).map fun (ds, rest) =>
        let n : Int := Text.digitsValue ds
        (some (if negative then -n else n), rest)
    else some (none, cs)
  | [] => some (none, [])

/-- A number and what follows it. -/
def number? (cs : List Char) : Option (Numeral × List Char) := do
  let (negative, cs) := match cs with
    | '-' :: rest => (true, rest)
    | cs => (false, cs)
  let (whole, cs) ← wholeDigits? cs
  let (fraction, cs) ← fraction? cs
  let (power, cs) ← power? cs
  let behind := fraction.getD []
  some
    ({ negative, digits := Text.digitsValue (whole ++ behind), power := power.getD 0 - behind.length
       whole := fraction.isNone && power.isNone }, cs)

mutual

/-- A value with the blanks before it, and what follows it. Every step takes at least one character,
so `fuel` need not be above the length of the text. -/
def value : (fuel : Nat) → List Char → Option (Json × List Char)
  | 0, _ => none
  | fuel + 1, cs =>
    match skip cs with
    | 'n' :: 'u' :: 'l' :: 'l' :: rest => some (.null, rest)
    | 't' :: 'r' :: 'u' :: 'e' :: rest => some (.bool true, rest)
    | 'f' :: 'a' :: 'l' :: 's' :: 'e' :: rest => some (.bool false, rest)
    | '"' :: rest => (text rest).map fun (s, rest) => (.string s, rest)
    | '[' :: rest =>
      match skip rest with
      | ']' :: rest => some (.array [], rest)
      | rest => (items fuel rest).map fun (js, rest) => (.array js, rest)
    | '\x7b' :: rest =>
      match skip rest with
      | '\x7d' :: rest => some (.object [], rest)
      | rest => (pairs fuel rest).map fun (ms, rest) => (.object ms, rest)
    | rest => (number? rest).map fun (n, rest) => (.number n, rest)

/-- The elements of an array, of which there is one, and what follows the closing bracket. -/
def items : (fuel : Nat) → List Char → Option (List Json × List Char)
  | 0, _ => none
  | fuel + 1, cs =>
    match value fuel cs with
    | none => none
    | some (j, rest) =>
      match skip rest with
      | ',' :: rest => (items fuel rest).map fun (js, rest) => (j :: js, rest)
      | ']' :: rest => some ([j], rest)
      | _ => none

/-- The members of an object, of which there is one, and what follows the closing brace. -/
def pairs : (fuel : Nat) → List Char → Option (List (Option String × Json) × List Char)
  | 0, _ => none
  | fuel + 1, cs =>
    match skip cs with
    | '"' :: rest =>
      match text rest with
      | none => none
      | some (name, rest) =>
        match skip rest with
        | ':' :: rest =>
          match value fuel rest with
          | none => none
          | some (j, rest) =>
            match skip rest with
            | ',' :: rest => (pairs fuel rest).map fun (ms, rest) => ((name, j) :: ms, rest)
            | '\x7d' :: rest => some ([(name, j)], rest)
            | _ => none
        | _ => none
    | _ => none

end

end Reader

/-- The value a whole text is written as. -/
def read? (text : String) : Option Json :=
  match Reader.value (2 * text.length + 2) text.toList with
  | some (j, rest) => if (Reader.skip rest).isEmpty then some j else none
  | none => none

end RevisionLog.Json
