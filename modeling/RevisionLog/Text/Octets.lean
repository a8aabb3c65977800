/-!
# Bytes and text

Payloads are bytes. Text becomes bytes as UTF-8; bytes become characters where a pattern has to be
matched against them, and then every sequence of bytes has some reading.

* `Text.octets` — the bytes of a text.
* `Text.hex`, `Text.ofHex?` — bytes as pairs of hexadecimal digits.
* `Text.lenient` — the characters that any sequence of bytes reads as.
-/

namespace RevisionLog

/-- A sequence of bytes. -/
abbrev Octets := List UInt8

namespace Text

/-- The bytes of a text. -/
def octets (s : String) : Octets := s.toUTF8.toList

/-- The two hexadecimal digits of a byte. -/
def hexPair (b : UInt8) : List Char :=
  [Nat.digitChar (b.toNat / 16), Nat.digitChar (b.toNat % 16)]

/-- Bytes as lower-case hexadecimal digits. -/
def hex (bs : Octets) : String := String.ofList (bs.flatMap hexPair)

/-- The value of a hexadecimal digit. -/
def hexValue? (c : Char) : Option Nat :=
  if '0' ≤ c ∧ c ≤ '9' then some (c.toNat - '0'.toNat)
  else if 'a' ≤ c ∧ c ≤ 'f' then some (c.toNat - 'a'.toNat + 10)
  else if 'A' ≤ c ∧ c ≤ 'F' then some (c.toNat - 'A'.toNat + 10)
  else none

/-- The bytes that pairs of hexadecimal digits stand for. -/
def ofHex? : List Char → Option Octets
  | [] => some []
  | [_] => none
  | a :: b :: cs => do
    let high ← hexValue? a
    let low ← hexValue? b
    let rest ← ofHex? cs
    some (UInt8.ofNat (16 * high + low) :: rest)

/-- The character that a number stands for which was gathered behind a leading byte. A number that
may not stand there is read as the replacement character, and one beyond all characters as none. -/
def charOf? (n : Nat) : Option Char :=
  if 0x10ffff < n then none
  else if n < 0x80 ∨ ¬n.isValidChar then some '\ufffd'
  else some (Char.ofNat n)

/-- Reads bytes as characters: a leading byte takes up all continuation bytes behind it, and any
other byte stands for the character of its own number. `lead` is the number gathered so far behind a
leading byte, in 32 bits. -/
def lenientFrom (lead : Option Nat) : Octets → List (Option Char)
  | [] => (lead.map charOf?).toList
  | b :: bs =>
    match lead with
    | some n =>
      if 0x80 ≤ b ∧ b < 0xc0 then lenientFrom (some ((64 * n + (b.toNat - 0x80)) % 2 ^ 32)) bs
      else charOf? n ::
        (if b < 0xc0 then some (Char.ofNat b.toNat) :: lenientFrom none bs
        else lenientFrom (some (leadValue b)) bs)
    | none =>
      if b < 0xc0 then some (Char.ofNat b.toNat) :: lenientFrom none bs
      else lenientFrom (some (leadValue b)) bs
where
  /-- The bits a leading byte contributes: those behind its leading ones and the zero after them. -/
  leadValue (b : UInt8) : Nat :=
    if b < 0xe0 then b.toNat % 32
    else if b < 0xf0 then b.toNat % 16
    else if b < 0xf8 then b.toNat % 8
    else if b < 0xfc then b.toNat % 4
    else if b < 0xfe then b.toNat % 2
    else 0

/-- The characters that bytes read as. -/
def lenient (bs : Octets) : List (Option Char) := lenientFrom none bs

end Text

end RevisionLog
