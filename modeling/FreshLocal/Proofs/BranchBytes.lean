import FreshLocal.Layout
import FreshLocal.Proofs.InstructionBytes

/-!
# Branches as bytes

A branch is written with the distances of its targets. A distance that has only
16 bits is written where it fits, and the length of code is small against 32
bits, so no distance is cut. Read at the same offset, in code of the same length,
the distances are the targets again.

* `Branch.length_encode`: the width of a branch is the number of its bytes.
* `Branch.Fits`: the switches that can be written.
* `Operation.finds_branch`: **a branch is read back from its bytes**.
-/

namespace FreshLocal

open Reader

variable {o length t : Nat}

/-- The distance from an offset to a target. -/
def distanceTo (offset target : Nat) : Int32 := Int32.ofInt ((target : Int) - offset)

theorem toInt_distanceTo (ho : o ≤ 65535) (ht : t ≤ 65535) :
    (distanceTo o t).toInt = (t : Int) - o :=
  Int32.toInt_ofInt_of_le (by omega) (by omega)

theorem jumpTarget_distance (ht : t < length) (d : Int) (hd : d = (t : Int) - o) :
    jumpTarget length o d = .ok t := by
  have htarget : (o : Int) + d = t := by omega
  simp only [jumpTarget, htarget]
  rw [if_pos (by omega), Int.toNat_natCast]

namespace Branch

variable {π : Type}

/-- The keys of a table have to be numbers of 32 bits, and there has to be one. -/
def Fits : Branch π → Prop
  | tableSwitch _ low targets => 1 ≤ targets.length ∧ low.toInt + targets.length - 1 < 2 ^ 31
  | _ => True

theorem fits_map {π' : Type} (f : π → π') (b : Branch π) : (b.map f).Fits ↔ b.Fits := by
  cases b <;> simp [map, Fits]

theorem width_map {π' : Type} (f : π → π') (b : Branch π) (wide : Bool) :
    (b.map f).width o wide = b.width o wide := by
  cases b <;> simp [map, width]

theorem width_pos (b : Branch π) (wide : Bool) : 0 < b.width o wide := by
  unfold width
  repeat' split
  all_goals omega

/-- **The width of a branch** is the number of its bytes. -/
theorem length_encode (wide : Bool) (b : Branch Int32) :
    (b.encode o wide).length = b.width o wide := by
  have hcases : ∀ cs : List (Int32 × Int32),
      (cs.flatMap fun c => Bytes.i32 c.1 ++ Bytes.i32 c.2).length = 8 * cs.length := by
    intro cs
    induction cs with
    | nil => rfl
    | cons c cs ih =>
      simp only [List.flatMap_cons, List.length_append, List.length_cons, ih, Bytes.length_i32]
      omega
  have htargets : ∀ ts : List Int32, (ts.flatMap Bytes.i32).length = 4 * ts.length := by
    intro ts
    induction ts with
    | nil => rfl
    | cons t ts ih =>
      simp only [List.flatMap_cons, List.length_append, List.length_cons, ih, Bytes.length_i32]
      omega
  cases b with
  | goto d | jsr d =>
    simp only [encode, width]
    split <;> simp [Bytes.length_i32, Bytes.length_i16]
  | jump c d => simp [encode, width, Bytes.length_i16]
  | exit e => rfl
  | tableSwitch d low ts =>
    simp only [encode, width, List.length_cons, List.length_append, List.length_replicate,
      Bytes.length_i32, htargets]
    omega
  | lookupSwitch d cs =>
    simp only [encode, width, List.length_cons, List.length_append, List.length_replicate,
      Bytes.length_i32, hcases]
    omega

end Branch

namespace Operation

variable {π π' : Type}

/-- How many bytes an operation takes at an offset. -/
def width (offset : Nat) (wide : Bool) : Operation π → Nat
  | .plain i => i.width
  | .branch b => b.width offset wide

theorem width_map (f : π → π') (op : Operation π) (offset : Nat) (wide : Bool) :
    (op.map f).width offset wide = op.width offset wide := by
  cases op with
  | plain i => rfl
  | branch b => exact Branch.width_map f b wide

theorem finds_near {o' : Nat} (hlen : length ≤ 65535) (ho : o < length) (ht : t < length)
    (hnear : isNear ((t : Int) - o) = true) :
    (readNear length o).Finds o' (Bytes.i16 (distanceTo o t).toInt16) t := by
  simp only [isNear, Bool.and_eq_true, decide_eq_true_eq] at hnear
  have hd : (distanceTo o t).toInt16.toInt = (t : Int) - o := by
    rw [Int32.toInt_toInt16, toInt_distanceTo (by omega) (by omega),
      Int.bmod_eq_of_le (by omega) (by omega)]
  refine (finds_i16 _).bind_nil ?_
  rw [jumpTarget_distance ht _ hd]
  exact finds_pure t

theorem finds_far {o' : Nat} (hlen : length ≤ 65535) (ho : o < length) (ht : t < length) :
    (readFar length o).Finds o' (Bytes.i32 (distanceTo o t)) t := by
  refine (finds_i32 _).bind_nil ?_
  rw [jumpTarget_distance ht _ (toInt_distanceTo (by omega) (by omega))]
  exact finds_pure t

/-- The last key of a table. -/
theorem toInt_high {low : Int32} {n : Nat} (hn : 1 ≤ n) (hn' : n ≤ 65535)
    (hfits : low.toInt + n - 1 < 2 ^ 31) :
    (low + Int32.ofNat n - 1).toInt = low.toInt + n - 1 := by
  have hlow := low.le_toInt
  have hlow' := low.toInt_lt
  have hcast : (Int32.ofNat n).toInt = n := Int32.toInt_ofNat_of_lt (by omega)
  have hone : (1 : Int32).toInt = 1 := rfl
  rw [Int32.toInt_sub, Int32.toInt_add, hcast, hone, Int.bmod_sub_bmod]
  exact Int.bmod_eq_of_le (by omega) (by omega)

theorem finds_tableSwitch {d : Nat} {low : Int32} {ts : List Nat} (hlen : length ≤ 65535)
    (ho : o < length) (hd : d < length) (hts : ∀ t ∈ ts, t < length)
    (hfits : (Branch.tableSwitch d low ts).Fits) (hroom : ts.length ≤ length) :
    (read length).Finds o
      ((Branch.tableSwitch (distanceTo o d) low (ts.map (distanceTo o))).encode o false)
      (o, .branch (.tableSwitch d low ts)) := by
  obtain ⟨hpos, hmax⟩ := hfits
  have hhigh := toInt_high hpos (by omega) hmax
  simp only [Branch.encode, List.length_map, List.append_assoc]
  refine finds_operands (Finds.map branch ?_)
  refine (finds_bytes (List.length_replicate)).bind ?_
  refine (finds_far hlen ho hd).bind ((finds_i32 low).bind ((finds_i32 _).bind ?_))
  have hcount : (low + Int32.ofNat ts.length - 1).toInt - low.toInt + 1 = ts.length := by omega
  dsimp only
  rw [hcount, if_neg (by omega), Int.toNat_natCast, List.flatMap_map]
  exact (finds_times fun t ht o' => finds_far hlen ho (hts t ht)).bind_nil (finds_pure _)

theorem finds_lookupSwitch {d : Nat} {cs : List (Int32 × Nat)} (hlen : length ≤ 65535)
    (ho : o < length) (hd : d < length) (hcs : ∀ c ∈ cs, c.2 < length)
    (hroom : cs.length ≤ length) :
    (read length).Finds o
      ((Branch.lookupSwitch (distanceTo o d)
        (cs.map fun (key, t) => (key, distanceTo o t))).encode o false)
      (o, .branch (.lookupSwitch d cs)) := by
  simp only [Branch.encode, List.length_map, List.append_assoc]
  refine finds_operands (Finds.map branch ?_)
  refine (finds_bytes (List.length_replicate)).bind ?_
  refine (finds_far hlen ho hd).bind (((finds_i32 _).map _).bind ?_)
  have hcount : (Int32.ofNat cs.length).toInt = cs.length := Int32.toInt_ofNat_of_lt (by omega)
  dsimp only
  rw [hcount, if_neg (by omega), Int.toNat_natCast, List.flatMap_map]
  refine (finds_times fun c hc o' => ?_).bind_nil (finds_pure _)
  exact (finds_i32 c.1).bind ((finds_far hlen ho (hcs c hc)).bind_nil (finds_pure _))

/-- **A branch is read back from its bytes.** -/
theorem finds_branch {b : Branch Nat} {wide : Bool} (hlen : length ≤ 65535) (ho : o < length)
    (ht : ∀ t ∈ b.targets, t < length) (hfits : b.Fits)
    (hnear : ∀ t ∈ b.targets,
      (wide = true ∧ b.isWidenable = true) ∨ b.isSwitch = true ∨ isNear ((t : Int) - o) = true)
    (hroom : o + b.width o wide ≤ length) :
    (read length).Finds o ((b.map (distanceTo o)).encode o wide) (o, .branch b) := by
  cases b with
  | exit e => exact finds_operands (finds_pure _)
  | jump c t =>
    simp only [Branch.targets, List.mem_singleton, forall_eq] at ht hnear
    have hnear : isNear ((t : Int) - o) = true := by
      simpa [Branch.isWidenable, Branch.isSwitch] using hnear
    exact finds_operands ((finds_near hlen ho ht hnear).map _)
  | goto t =>
    simp only [Branch.targets, List.mem_singleton, forall_eq] at ht hnear
    cases wide with
    | true => exact finds_operands ((finds_far hlen ho ht).map _)
    | false =>
      have hnear : isNear ((t : Int) - o) = true := by simpa [Branch.isSwitch] using hnear
      exact finds_operands ((finds_near hlen ho ht hnear).map _)
  | jsr t =>
    simp only [Branch.targets, List.mem_singleton, forall_eq] at ht hnear
    cases wide with
    | true => exact finds_operands ((finds_far hlen ho ht).map _)
    | false =>
      have hnear : isNear ((t : Int) - o) = true := by simpa [Branch.isSwitch] using hnear
      exact finds_operands ((finds_near hlen ho ht hnear).map _)
  | tableSwitch d low ts =>
    simp only [Branch.targets, List.forall_mem_cons] at ht
    simp only [Branch.width] at hroom
    exact finds_tableSwitch hlen ho ht.1 ht.2 hfits (by omega)
  | lookupSwitch d cs =>
    simp only [Branch.targets, List.forall_mem_cons, List.forall_mem_map] at ht
    simp only [Branch.width] at hroom
    exact finds_lookupSwitch hlen ho ht.1 ht.2 (by omega)

end Operation

end FreshLocal
