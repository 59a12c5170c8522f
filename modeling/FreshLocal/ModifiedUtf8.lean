import FreshLocal.Bytes

/-!
# Modified UTF-8

The text of a class file is a sequence of UTF-16 code units, each of them
written in one to three bytes. It differs from UTF-8 in two ways: the unit `0`
takes two bytes, so that a text holds no zero byte, and a supplementary
character is written as its two surrogates.

* `utf16`, `ofUtf16?`: a character as one or two units, and back.
* `unitBytes`, `units`: a unit as bytes, and back. Reading also accepts a unit
  in more bytes than it needs.
* `encode`, `decode`: a text as bytes, and back. An unpaired surrogate is no
  text.
-/

namespace FreshLocal.ModifiedUtf8

/-- The UTF-16 code units of a character. -/
def utf16 (c : Char) : List Nat :=
  if c.toNat < 0x10000 then [c.toNat]
  else [0xD800 + (c.toNat - 0x10000) / 0x400, 0xDC00 + (c.toNat - 0x10000) % 0x400]

/-- A code unit in the fewest bytes, but never in a single zero byte. -/
def unitBytes (u : Nat) : Bytes :=
  if 0 < u ∧ u < 0x80 then [UInt8.ofNat u]
  else if u < 0x800 then [UInt8.ofNat (0xC0 + u / 0x40), UInt8.ofNat (0x80 + u % 0x40)]
  else
    [UInt8.ofNat (0xE0 + u / 0x1000), UInt8.ofNat (0x80 + u / 0x40 % 0x40),
      UInt8.ofNat (0x80 + u % 0x40)]

/-- The bytes of a text. -/
def encode (text : String) : Bytes := (text.toList.flatMap utf16).flatMap unitBytes

/-- A byte that continues a unit carries six bits of it. -/
def isContinuation (b : UInt8) : Bool := 0x80 ≤ b && b < 0xC0

/-- The value of the six low bits of a byte. -/
def lowBits (b : UInt8) : Nat := b.toNat % 0x40

/-- The code units in some bytes, behind those of `done`, which are in reverse. -/
def unitsOnto : Bytes → (done : List Nat) → Option (List Nat)
  | [], done => some done.reverse
  | b :: rest, done =>
    if 0 < b ∧ b < 0x80 then unitsOnto rest (b.toNat :: done)
    else if 0xC0 ≤ b ∧ b < 0xE0 then
      match rest with
      | c :: rest =>
        if isContinuation c then
          unitsOnto rest ((b.toNat % 0x20 * 0x40 + lowBits c) :: done)
        else none
      | [] => none
    else if 0xE0 ≤ b ∧ b < 0xF0 then
      match rest with
      | c :: d :: rest =>
        if isContinuation c && isContinuation d then
          unitsOnto rest ((b.toNat % 0x10 * 0x1000 + lowBits c * 0x40 + lowBits d) :: done)
        else none
      | _ => none
    else none

/-- The code units in some bytes. -/
def units (bytes : Bytes) : Option (List Nat) := unitsOnto bytes []

/-- The first unit of a supplementary character. -/
def isHighSurrogate (u : Nat) : Bool := 0xD800 ≤ u && u < 0xDC00

/-- The second unit of a supplementary character. -/
def isLowSurrogate (u : Nat) : Bool := 0xDC00 ≤ u && u < 0xE000

/-- The characters in some code units, behind those of `done`, which are in reverse. -/
def ofUtf16Onto : List Nat → (done : List Char) → Option (List Char)
  | [], done => some done.reverse
  | u :: rest, done =>
    if isHighSurrogate u then
      match rest with
      | v :: rest =>
        if isLowSurrogate v then
          ofUtf16Onto rest (Char.ofNat (0x10000 + (u - 0xD800) * 0x400 + (v - 0xDC00)) :: done)
        else none
      | [] => none
    else if isLowSurrogate u then none
    else ofUtf16Onto rest (Char.ofNat u :: done)

/-- The characters in some code units; none if a surrogate stands alone. -/
def ofUtf16? (us : List Nat) : Option (List Char) := ofUtf16Onto us []

/-- The text in some bytes. -/
def decode (bytes : Bytes) : Except DecodeFault String :=
  match (units bytes).bind ofUtf16? with
  | some chars => .ok (String.ofList chars)
  | none => .error .malformedUtf8

end FreshLocal.ModifiedUtf8
