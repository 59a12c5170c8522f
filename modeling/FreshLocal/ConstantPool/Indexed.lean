import FreshLocal.ConstantPool
import FreshLocal.OffsetVec
import Std.Data.HashMap

/-!
# A constant pool with its indices

A pool is asked for constants by index, and for the indices of texts and classes.
So beside its constants, which are found by a binary search, it has two tables:
where each text stands for the first time, and where each class does. The three
parts change together, each time that a constant is put at the end.

* `IndexedPool.push`: put a constant at the end.
* `IndexedPool.lookup`, `utf8`, `className`: what an index stands for.
* `IndexedPool.textIndex`, `classIndex`: an index for a text or a class.
* `IndexedPool.write`, `IndexedPool.read`: the binary form.
-/

namespace FreshLocal

/-- The constants by index, and the indices of texts and of classes. -/
structure IndexedPool where
  constants : OffsetVec Constant
  /-- The first index of each text. -/
  texts : Std.HashMap String PoolIndex
  /-- The first index of the class whose name stands at an index. -/
  classes : Std.HashMap PoolIndex PoolIndex

/-- A step that may change a pool with its indices. -/
abbrev IndexedPoolM := EStateM Fault IndexedPool

namespace IndexedPool

/-- The pool without constants. -/
def empty : IndexedPool := ⟨.startingAt 1, ∅, ∅⟩

/-- One more than the last index in use. -/
def count (pool : IndexedPool) : UInt16 := UInt16.ofNat pool.constants.next

/-- The constant at an index. -/
def lookup (pool : IndexedPool) (index : PoolIndex) : Except DecodeFault Constant :=
  match pool.constants.get? index.toNat with
  | some constant => .ok constant
  | none => .error (.badConstantIndex index)

/-- The text at an index. -/
def utf8 (pool : IndexedPool) (index : PoolIndex) : Except DecodeFault String := do
  match ← pool.lookup index with
  | .utf8 text => pure text
  | _ => throw (.wrongConstantType index "Utf8")

/-- The name of the class at an index. -/
def className (pool : IndexedPool) (index : PoolIndex) : Except DecodeFault String := do
  match ← pool.lookup index with
  | .classRef name => pool.utf8 name
  | _ => throw (.wrongConstantType index "Class")

/-- Remember the index of a text or a class, unless it is the index of one that is there twice. -/
def remember (pool : IndexedPool) (index : PoolIndex) : Constant → IndexedPool
  | .utf8 text => { pool with texts := pool.texts.insertIfNew text index }
  | .classRef name => { pool with classes := pool.classes.insertIfNew name index }
  | _ => pool

/-- A constant at the end, where the next index is. -/
def append (pool : IndexedPool) (constant : Constant) : IndexedPool :=
  { pool.remember pool.count constant with
    constants := pool.constants.push constant.width constant }

/-- Put a constant at the end, if the index behind it fits in 16 bits. -/
def push (constant : Constant) : IndexedPoolM PoolIndex := do
  let pool ← get
  if pool.count.toNat + constant.width ≤ 65535 then
    set (pool.append constant)
    pure pool.count
  else throw (.constantPoolFull pool.count)

/-- The index that was found for a constant, or the one at which it is put at the end. -/
def orPush (constant : Constant) : Option PoolIndex → IndexedPoolM PoolIndex
  | some index => pure index
  | none => push constant

/-- The index of a text. -/
def textIndex (text : String) : IndexedPoolM PoolIndex := do
  orPush (.utf8 text) (← get).texts[text]?

/-- The index of a class. -/
def classIndex (name : String) : IndexedPoolM PoolIndex := do
  let nameIndex ← textIndex name
  orPush (.classRef nameIndex) (← get).classes[nameIndex]?

/-- The count, then the constants. -/
def write (pool : IndexedPool) : Bytes :=
  .u16 pool.count ++ pool.constants.entries.toList.flatMap (·.2.write)

theorem push_run (constant : Constant) (pool : IndexedPool) : (push constant).run pool =
    if pool.count.toNat + constant.width ≤ 65535 then .ok pool.count (pool.append constant)
    else .error (.constantPoolFull pool.count) pool := by
  change (if pool.count.toNat + constant.width ≤ 65535 then
    (do set (pool.append constant); pure pool.count : IndexedPoolM PoolIndex)
    else throw (.constantPoolFull pool.count)) pool = _
  split
  · rfl
  · rfl

/-- The next index is higher when a constant was put at the end. -/
theorem next_lt_of_push {constant : Constant} {pool pool' : IndexedPool} {index : PoolIndex}
    (h : (push constant).run pool = .ok index pool') :
    pool.constants.next < pool'.constants.next := by
  rw [push_run] at h
  split at h
  · cases h
    exact Nat.lt_add_of_pos_right constant.width_pos
  · cases h

/-- Constants behind those of a pool, as long as the next index is below the count. -/
def readFrom (count : Nat) (pool : IndexedPool) (c : Cursor) :
    Except Fault (IndexedPool × Cursor) :=
  if pool.constants.next < count then
    match Constant.read c with
    | .error fault => .error (.decode fault)
    | .ok (constant, c) =>
      match hpush : (push constant).run pool with
      | .error fault _ => .error fault
      | .ok _ pool' =>
        have _ := next_lt_of_push hpush
        readFrom count pool' c
  else .ok (pool, c)
termination_by count - pool.constants.next

/-- A pool behind its count. -/
def read (c : Cursor) : Except Fault (IndexedPool × Cursor) :=
  match Reader.u16 c with
  | .error fault => .error (.decode fault)
  | .ok (count, c) => readFrom count.toNat empty c

end IndexedPool

end FreshLocal
