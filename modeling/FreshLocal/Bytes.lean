import FreshLocal.Fault

/-!
# Bytes, numbers and cursors

A class file is a sequence of bytes. Numbers in it are big-endian, and a
structure is read by moving a **cursor** over the bytes; a read that needs more
bytes than are ahead fails with `DecodeFault.truncated`.

* `Bytes.number`: the big-endian form of a number.
* `Cursor`: how far a reader has come, and what is ahead of it.
* `Reader`: a step of a cursor that yields a value or a fault.
* `Reader.times`, `Reader.untilEnd`: many values in a row.
-/

namespace FreshLocal

/-- A sequence of bytes. -/
abbrev Bytes := List UInt8

namespace Bytes

/-- The `width` low-order bytes of a number, the most significant one first. -/
def number : (width : Nat) → Nat → Bytes
  | 0, _ => []
  | width + 1, n => number width (n / 256) ++ [UInt8.ofNat n]

/-! Numbers of each fixed width, the signed ones in two's complement. -/

def u8 (x : UInt8) : Bytes := [x]
def u16 (x : UInt16) : Bytes := number 2 x.toNat
def u32 (x : UInt32) : Bytes := number 4 x.toNat
def u64 (x : UInt64) : Bytes := number 8 x.toNat
def i8 (x : Int8) : Bytes := [x.toUInt8]
def i16 (x : Int16) : Bytes := u16 x.toUInt16
def i32 (x : Int32) : Bytes := u32 x.toUInt32
def i64 (x : Int64) : Bytes := u64 x.toUInt64

/-- A list behind its length, which is written in 16 bits. -/
def counted {α : Type} (write : α → Bytes) (xs : List α) : Bytes :=
  u16 (UInt16.ofNat xs.length) ++ xs.flatMap write

end Bytes

/-- A place in a sequence of bytes: how many bytes were passed, and those ahead. -/
structure Cursor where
  offset : Nat
  ahead : Bytes

/-- The cursor before the first byte. -/
def Cursor.start (bytes : Bytes) : Cursor := ⟨0, bytes⟩

/-- A reader takes a value off the bytes ahead of a cursor. -/
abbrev Reader := StateT Cursor (Except DecodeFault)

namespace Reader

variable {α : Type}

/-- The next byte. -/
def u8 : Reader UInt8 := fun c =>
  match c.ahead with
  | [] => .error .truncated
  | b :: rest => .ok (b, ⟨c.offset + 1, rest⟩)

/-- A big-endian number of `width` bytes, below the digits `high` read before. -/
def numberFrom (high : Nat) : (width : Nat) → Reader Nat
  | 0 => pure high
  | width + 1 => do
    let b ← u8
    numberFrom (high * 256 + b.toNat) width

/-- A big-endian number of `width` bytes. -/
def number (width : Nat) : Reader Nat := numberFrom 0 width

/-! Numbers of each fixed width, the signed ones in two's complement. -/

def u16 : Reader UInt16 := UInt16.ofNat <$> number 2
def u32 : Reader UInt32 := UInt32.ofNat <$> number 4
def u64 : Reader UInt64 := UInt64.ofNat <$> number 8
def i8 : Reader Int8 := UInt8.toInt8 <$> u8
def i16 : Reader Int16 := UInt16.toInt16 <$> u16
def i32 : Reader Int32 := UInt32.toInt32 <$> u32
def i64 : Reader Int64 := UInt64.toInt64 <$> u64

/-- The next `n` bytes. -/
def bytes (n : Nat) : Reader Bytes := fun c =>
  let (taken, rest) := c.ahead.splitAt n
  if taken.length = n then .ok (taken, ⟨c.offset + n, rest⟩) else .error .truncated

/-- The offset of the cursor. -/
def offset : Reader Nat := fun c => .ok (c.offset, c)

/-- What `times` does, with the values read so far in reverse. -/
def timesOnto (r : Reader α) : Nat → List α → Reader (List α)
  | 0, done => fun c => .ok (done.reverse, c)
  | n + 1, done => fun c =>
    match r c with
    | .error fault => .error fault
    | .ok (x, c) => timesOnto r n (x :: done) c

/-- The values of `n` reads in a row. -/
def times (n : Nat) (r : Reader α) : Reader (List α) := timesOnto r n []

/-- A list behind its length in 16 bits. -/
def counted (r : Reader α) : Reader (List α) := do
  let n ← u16
  times n.toNat r

/-- What `untilEnd` does with at most `fuel` reads, with the values read so far in reverse. -/
def untilEndOnto (r : Reader α) : (fuel : Nat) → List α → Reader (List α)
  | 0, done => fun c => .ok (done.reverse, c)
  | fuel + 1, done => fun c =>
    if c.ahead.isEmpty then .ok (done.reverse, c)
    else
      match r c with
      | .error fault => .error fault
      | .ok (x, c) => untilEndOnto r fuel (x :: done) c

/-- The values of as many reads as it takes to come to the end, for a reader that takes at
least one byte. -/
def untilEnd (r : Reader α) : Reader (List α) := fun c => untilEndOnto r c.ahead.length [] c

/-- What the reader finds at the front of some bytes. -/
def front (r : Reader α) (bs : Bytes) : Except DecodeFault (α × Bytes) :=
  match r (.start bs) with
  | .error fault => .error fault
  | .ok (x, c) => .ok (x, c.ahead)

/-- What the reader finds in some bytes that it has to use up; `what` names the structure. -/
def whole (what : String) (r : Reader α) (bs : Bytes) : Except DecodeFault α :=
  match r (.start bs) with
  | .error fault => .error fault
  | .ok (x, c) => if c.ahead.isEmpty then .ok x else .error (.trailingBytes what)

end Reader

end FreshLocal
