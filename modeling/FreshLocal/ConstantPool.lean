import FreshLocal.Constant

/-!
# The constant pool

Constants are kept at ascending indices from 1 on. A constant of width two
leaves the index after its own empty. A pool only ever grows, at its end, so an
index that resolves keeps its meaning; a text or a class is added only if the
pool has no equal one, and of equal ones the first is used.

* `ConstantPool.lookup`, `utf8`, `className`: what an index stands for.
* `ConstantPool.textIndex`, `classIndex`: an index for a text or a class, which
  grow the pool where they have to.
* `ConstantPool.write`, `ConstantPool.read`: the binary form.
-/

namespace FreshLocal

/-- The constants by index; nothing starts at index 0 or behind a wide constant. -/
structure ConstantPool where
  entries : Array (Option Constant)
deriving DecidableEq

/-- A step that may grow the pool. It keeps what it added when it fails. -/
abbrev PoolM := EStateM Fault ConstantPool

namespace ConstantPool

/-- The pool without constants. -/
def empty : ConstantPool := ⟨#[none]⟩

/-- One more than the last index in use. -/
def count (pool : ConstantPool) : Nat := pool.entries.size

/-- The constant at an index. -/
def lookup (pool : ConstantPool) (index : PoolIndex) : Except DecodeFault Constant :=
  match pool.entries[index.toNat]? with
  | some (some constant) => .ok constant
  | _ => .error (.badConstantIndex index)

/-- The text at an index. -/
def utf8 (pool : ConstantPool) (index : PoolIndex) : Except DecodeFault String := do
  match ← pool.lookup index with
  | .utf8 text => pure text
  | _ => throw (.wrongConstantType index "Utf8")

/-- The name of the class at an index. -/
def className (pool : ConstantPool) (index : PoolIndex) : Except DecodeFault String := do
  match ← pool.lookup index with
  | .classRef name => pool.utf8 name
  | _ => throw (.wrongConstantType index "Class")

/-- The entries that a constant takes up. -/
def slots (constant : Constant) : List (Option Constant) :=
  some constant :: List.replicate (constant.width - 1) none

/-- Put a constant at the end, if its indices fit in 16 bits. -/
def add (constant : Constant) : PoolM PoolIndex := do
  let pool ← get
  let index := UInt16.ofNat pool.count
  if pool.count + constant.width ≤ 65535 then
    set (⟨pool.entries.appendList (slots constant)⟩ : ConstantPool)
    pure index
  else throw (.constantPoolFull index)

/-- The index of the first constant that passes a test. -/
def findIndex? (pool : ConstantPool) (test : Constant → Bool) : Option PoolIndex :=
  (pool.entries.findIdx? (·.any test)).map UInt16.ofNat

/-- The index of a constant, which is added if there is none like it. -/
def intern (constant : Constant) : PoolM PoolIndex := do
  match (← get).findIndex? (· == constant) with
  | some index => pure index
  | none => add constant

/-- The index of a text. -/
def textIndex (text : String) : PoolM PoolIndex := intern (.utf8 text)

/-- The index of a class; the name is a binary name or, of an array type, a descriptor. -/
def classIndex (name : String) : PoolM PoolIndex := do
  let nameIndex ← textIndex name
  intern (.classRef nameIndex)

/-- The constants with the indices at which they start. -/
def constants (pool : ConstantPool) : List (Nat × Constant) :=
  pool.entries.toList.zipIdx.filterMap fun (entry, index) => entry.map (index, ·)

/-- The count, then the constants. -/
def write (pool : ConstantPool) : Bytes :=
  .u16 (UInt16.ofNat pool.count) ++
    (pool.entries.toList.filterMap id).flatMap Constant.write

/-- At most `fuel` constants behind those of `pool`, up to the index `count`. -/
def readOnto (count : Nat) : (fuel : Nat) → (pool : ConstantPool) → Cursor →
    Except Fault (ConstantPool × Cursor)
  | 0, pool, c => .ok (pool, c)
  | fuel + 1, pool, c =>
    if pool.count < count then
      match Constant.read c with
      | .error fault => .error (.decode fault)
      | .ok (constant, c) =>
        match (add constant).run pool with
        | .error fault _ => .error fault
        | .ok _ pool => readOnto count fuel pool c
    else .ok (pool, c)

/-- A pool behind its count. A wide constant may be the last one and reach past the count. -/
def read (c : Cursor) : Except Fault (ConstantPool × Cursor) :=
  match Reader.u16 c with
  | .error fault => .error (.decode fault)
  | .ok (count, c) => readOnto count.toNat count.toNat empty c

end ConstantPool

end FreshLocal
