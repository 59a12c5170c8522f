import FreshLocal.Slot.Allocator
import FreshLocal.Proofs.Allocation

/-!
# Fresh slots

Any number of variables of any types may be asked for, behind the arguments or behind all slots
of a method, and some of the requests may be refused since 16 bits cannot hold their slots. The
arguments alone may already be too many.

**Argument.** All that a request reads is the range of the slots that were handed out so far. The
end of the range is where the next variable starts, and whether it fits is decided by this end and
its own width. If it is granted then the end moves behind it, and otherwise nothing moves. So the
slots of all variables that were granted are the range, without a gap. A slot of the method either
stays below the range or moves by its width, to its end or behind it.

* `Allocator.allocate_eq`: **what a request does**, in closed form.
* `Allocator.allocateAll_spec`: the state behind a run of requests, from those that were granted.
* `Allocator.FreshSlots`, `Insertion.ClearOf`: what is true of the slots that were handed out, and
  of the slots that move to make room.
* `Allocator.allocateAll_fresh`: **any run of requests**.
-/

namespace FreshLocal

namespace Allocator

variable {a b : Allocator} {r : SlotRange} {t : FieldType} {types : List FieldType}

/-! ## One request -/

/-- The slots that were handed out, once the code has begun. -/
def range? : Allocator → Option SlotRange
  | insertion p => some p.range
  | extension x => x.range

/-- The allocator with the slots of one more variable handed out. -/
def grant : Allocator → FieldType → Allocator
  | insertion p, t => insertion { p with
      range := { p.range with width := p.range.width + t.width }
      inserted := p.inserted ++ [t.localType] }
  | extension x, t => extension ⟨x.range.map fun r => { r with width := r.width + t.width }⟩

theorem width_of_range (h : a.range? = some r) : a.width = r.width := by
  cases a with
  | insertion p => cases h; rfl
  | extension x => simp only [range?] at h; simp only [width, Extension.width, h]

theorem range?_grant (h : a.range? = some r) :
    (a.grant t).range? = some { r with width := r.width + t.width } := by
  cases a with
  | insertion p => cases h; rfl
  | extension x => simp only [range?] at h; simp only [grant, range?, h, Option.map_some]

/-- **What a request does.** It is granted if the variable ends at 65535 at the latest. -/
theorem allocate_eq (h : a.range? = some r) (t : FieldType) : a.allocate t =
    if r.stop + t.width ≤ 65535 then .ok (UInt16.ofNat r.stop, a.grant t)
    else .error (.localsOverflow (UInt32.ofNat (r.stop + t.width))) := by
  cases a with
  | insertion p =>
    cases h
    simp only [allocate, Insertion.allocate, SlotRange.extend, grant]
    split_ifs <;> rfl
  | extension x =>
    simp only [range?] at h
    simp only [allocate, Extension.allocate, SlotRange.extend, grant, h, Option.map_some]
    split_ifs <;> rfl

/-- **A request that is granted** starts at the end of the range, and is within the limit. -/
theorem allocate_eq_ok (h : a.range? = some r) {slot : UInt16}
    (hok : a.allocate t = .ok (slot, b)) :
    slot.toNat = r.stop ∧ r.stop + t.width ≤ 65535 ∧ b = a.grant t := by
  rw [allocate_eq h] at hok
  split at hok
  · rename_i hfits
    cases hok
    exact ⟨UInt16.toNat_ofNat_of_lt' (by unfold UInt16.size; omega), hfits, rfl⟩
  · cases hok

/-! ## A run of requests -/

/-- Ask for variables of some types in turn, and go on when one is refused. -/
def allocateAll (a : Allocator) : List FieldType → Allocator × List (Except Fault UInt16)
  | [] => (a, [])
  | t :: rest =>
    match a.allocate t with
    | .error fault => ((a.allocateAll rest).1, .error fault :: (a.allocateAll rest).2)
    | .ok (slot, b) => ((b.allocateAll rest).1, .ok slot :: (b.allocateAll rest).2)

/-- The requests that were granted: the first slot and the type of each variable. -/
def granted (types : List FieldType) (answers : List (Except Fault UInt16)) :
    List (UInt16 × FieldType) :=
  (types.zip answers).filterMap fun (t, answer) => answer.toOption.map (·, t)

/-- All slots of a variable, by the first one and its type. -/
def slotsOf (g : UInt16 × FieldType) : List Nat := List.range' g.1.toNat g.2.width

/-- How many slots some variables take. -/
def totalWidth (given : List (UInt16 × FieldType)) : Nat := (given.map fun g => g.2.width).sum

/-- A run of requests that are all granted. -/
inductive Grants : Allocator → List (UInt16 × FieldType) → Allocator → Prop
  | nil {a : Allocator} : Grants a [] a
  | cons {a b c : Allocator} {t : FieldType} {slot : UInt16} {given : List (UInt16 × FieldType)}
    (h : a.allocate t = .ok (slot, b)) (hrest : Grants b given c) :
    Grants a ((slot, t) :: given) c

theorem length_allocateAll (a : Allocator) (types : List FieldType) :
    (a.allocateAll types).2.length = types.length := by
  induction types generalizing a with
  | nil => rfl
  | cons t rest ih =>
    rw [allocateAll]
    split <;> simp [ih]

/-- A run of requests behind the arguments is that of the insertion. -/
theorem allocateAll_insertion (p : Insertion) (types : List FieldType) :
    (insertion p).allocateAll types =
      (insertion (p.allocateAll types).1, (p.allocateAll types).2) := by
  induction types generalizing p with
  | nil => rfl
  | cons t rest ih =>
    cases h : p.allocate t with
    | error fault =>
      have hrefused : (insertion p).allocate t = .error fault := by rw [allocate, h]; rfl
      simp only [allocateAll, Insertion.allocateAll, hrefused, h, ih p]
    | ok granted =>
      have hgranted : (insertion p).allocate t = .ok (granted.1, insertion granted.2) := by
        rw [allocate, h]; rfl
      simp only [allocateAll, Insertion.allocateAll, hgranted, h, ih granted.2]

/-- **Any run of requests** is that of those that were granted. -/
theorem grants_allocateAll (a : Allocator) (types : List FieldType) :
    Grants a (granted types (a.allocateAll types).2) (a.allocateAll types).1 := by
  induction types generalizing a with
  | nil => exact .nil
  | cons t rest ih =>
    rw [allocateAll]
    split
    · exact ih a
    · rename_i slot b h
      exact .cons h (ih b)

namespace Grants

variable {given : List (UInt16 × FieldType)}

/-- Asked for again, without those that were refused, the variables get the same slots. -/
theorem allocateAll_eq (h : Grants a given b) :
    a.allocateAll (given.map Prod.snd) = (b, given.map fun g => .ok g.1) := by
  induction h with
  | nil => rfl
  | cons h hrest ih => simp only [List.map_cons, allocateAll, h, ih]

/-- **The slots of the variables** stand one behind the other, from the end of the range on. -/
theorem consecutive (h : Grants a given b) (ha : a.range? = some r) :
    b.range? = some { r with width := r.width + totalWidth given } ∧
      given.flatMap slotsOf = List.range' r.stop (totalWidth given) ∧
      (given ≠ [] → r.stop + totalWidth given ≤ 65535) := by
  induction h generalizing r with
  | nil => exact ⟨ha, rfl, fun hne => absurd rfl hne⟩
  | @cons a b c t slot given h hrest ih =>
    obtain ⟨hslot, hfits, rfl⟩ := allocate_eq_ok ha h
    obtain ⟨hrange, hslots, hlimit⟩ := ih (range?_grant ha)
    have hwidth : totalWidth ((slot, t) :: given) = t.width + totalWidth given := rfl
    have hstop : ({ r with width := r.width + t.width } : SlotRange).stop = r.stop + t.width :=
      (Nat.add_assoc ..).symm
    rw [hstop] at hslots hlimit
    rw [hwidth, ← Nat.add_assoc, ← Nat.add_assoc]
    refine ⟨hrange, ?_, fun _ => ?_⟩
    · rw [List.flatMap_cons, hslots, slotsOf, hslot, List.range'_append_1]
    · cases given with
      | nil => exact hfits
      | cons g given => exact hlimit (List.cons_ne_nil g given)

/-- The types of the variables are put behind those before, in the order of the requests. -/
theorem insertion_eq {p : Insertion} (h : Grants (insertion p) given b) :
    b = insertion { p with
      range := { p.range with width := p.range.width + totalWidth given }
      inserted := p.inserted ++ given.map fun g => g.2.localType } := by
  generalize ha : insertion p = a at h
  induction h generalizing p with
  | nil => rw [← ha]; simp [totalWidth]
  | @cons a b c t slot given h hrest ih =>
    subst ha
    obtain ⟨-, -, hb⟩ := allocate_eq_ok rfl h
    rw [ih hb.symm]
    simp [totalWidth, Nat.add_assoc]

end Grants

/-- **What is true of the slots that were handed out**, if the first one was to be `start`: those of
all variables in a row are `start` and the slots behind it, so no two variables share one; they end
at 65535 at the latest; and a further variable is granted the slots behind them if these end there,
too. -/
structure FreshSlots (start : Nat) (a : Allocator) (given : List (UInt16 × FieldType)) : Prop where
  width : a.width = totalWidth given
  consecutive : given.flatMap slotsOf = List.range' start a.width
  disjoint : given.Pairwise fun g g' => (slotsOf g).Disjoint (slotsOf g')
  limit : given ≠ [] → start + a.width ≤ 65535
  next : ∀ t, a.allocate t =
    if start + a.width + t.width ≤ 65535 then .ok (UInt16.ofNat (start + a.width), a.grant t)
    else .error (.localsOverflow (UInt32.ofNat (start + a.width + t.width)))

theorem Grants.freshSlots {start : Nat} {given : List (UInt16 × FieldType)} (h : Grants a given b)
    (ha : a.range? = some (.emptyAt start)) : FreshSlots start b given := by
  obtain ⟨hrange, hslots, hlimit⟩ := h.consecutive ha
  have hwidth : b.width = totalWidth given := by
    rw [width_of_range hrange]
    exact Nat.zero_add _
  have hdisjoint : (given.flatMap slotsOf).Nodup := by
    rw [hslots]
    exact List.nodup_range'
  refine ⟨hwidth, by rw [hwidth]; exact hslots, (List.nodup_flatMap.1 hdisjoint).2,
    by rw [hwidth]; exact hlimit, fun t => ?_⟩
  rw [allocate_eq hrange, hwidth]
  simp only [SlotRange.stop, SlotRange.emptyAt, Nat.zero_add]

end Allocator

/-! ## The slots that move -/

namespace Insertion

variable {p : Insertion} {slot : UInt16}

theorem relocate_eq_error {fault : Fault} : p.relocate slot = .error fault ↔
    p.boundary ≤ slot.toNat ∧ 65535 < slot.toNat + p.range.width ∧
      fault = .localsOverflow (UInt32.ofNat (slot.toNat + p.range.width)) := by
  unfold relocate slot16
  split_ifs with hbelow hfits
  · simp only [false_iff]
    omega
  · simp only [false_iff]
    omega
  · rw [Except.error.injEq, eq_comm]
    exact ⟨fun h => ⟨by omega, by omega, h⟩, fun h => h.2.2⟩

/-- **What is true of the slots that move** to make room for some variables at the slot `first`:
they keep their order, those below stay, none of them comes upon a variable, and one is refused
exactly if its new place is above 65535. The types of the variables, as frames list them, are as
wide as the room. -/
structure ClearOf (first : Nat) (p : Insertion) (given : List (UInt16 × FieldType)) : Prop where
  inserted : p.inserted = given.map fun g => g.2.localType
  width : slotCount p.inserted = p.range.width
  increasing : ∀ s s' r r', s < s' → p.relocate s = .ok r → p.relocate s' = .ok r' → r < r'
  below : ∀ s : UInt16, s.toNat < first → p.relocate s = .ok s
  clear : ∀ s r, p.relocate s = .ok r → ∀ g ∈ given, r.toNat ∉ Allocator.slotsOf g
  overflow : ∀ s fault, p.relocate s = .error fault ↔
    first ≤ s.toNat ∧ 65535 < s.toNat + p.range.width ∧
      fault = .localsOverflow (UInt32.ofNat (s.toNat + p.range.width))

theorem slotCount_localTypes (given : List (UInt16 × FieldType)) :
    slotCount (given.map fun g => (g.2.localType : CodeType)) = Allocator.totalWidth given := by
  have hcount := slotCount_map_localType (π := Label) (given.map Prod.snd)
  rw [List.map_map, List.map_map] at hcount
  exact hcount

/-- Slots keep their order. -/
theorem relocate_lt {s s' r r' : UInt16} (hlt : s < s') (h : p.relocate s = .ok r)
    (h' : p.relocate s' = .ok r') : r < r' := by
  rw [UInt16.lt_iff_toNat_lt] at hlt ⊢
  rcases relocate_eq_ok.1 h with ⟨hbelow, hr⟩ | ⟨habove, hr⟩ <;>
    rcases relocate_eq_ok.1 h' with ⟨hbelow', hr'⟩ | ⟨habove', hr'⟩ <;> omega

/-- **Nothing moves into the room.** -/
theorem relocate_outside {s r : UInt16} (h : p.relocate s = .ok r) :
    r.toNat ∉ List.range' p.boundary p.range.width := by
  rw [List.mem_range'_1]
  rcases relocate_eq_ok.1 h with ⟨hbelow, hr⟩ | ⟨habove, hr⟩ <;> omega

theorem clearOf_of_grants {m : DeclaredMethod} {policy : RelativeFrames}
    {given : List (UInt16 × FieldType)}
    (h : Allocator.Grants (.insertion (ofMethod m policy)) given (.insertion p)) :
    p.ClearOf m.first given := by
  have hslots := (h.consecutive rfl).2.1
  have hp := h.insertion_eq
  simp only [ofMethod, SlotRange.emptyAt, SlotRange.stop, Nat.add_zero, Nat.zero_add,
    List.nil_append] at hslots hp
  cases hp
  refine ⟨rfl, slotCount_localTypes given, fun s s' r r' => relocate_lt, ?_, ?_, ?_⟩
  · intro s hs
    exact if_pos hs
  · intro s r hr g hg hmem
    refine relocate_outside hr ?_
    rw [boundary, ← hslots]
    exact List.mem_flatMap.2 ⟨g, hg, hmem⟩
  · intro s fault
    exact relocate_eq_error

end Insertion

/-! ## Any run of requests -/

/-- The first slot that is handed out in a method. -/
def Options.firstFresh (options : Options) (m : DeclaredMethod) (maxLocals : UInt16) : Nat :=
  match options.placement with
  | .behindArguments => m.first
  | .behindAll => maxLocals.toNat

theorem Options.range?_begin (options : Options) (m : DeclaredMethod) (maxLocals : UInt16) :
    ((options.allocator m).begin maxLocals).range? =
      some (.emptyAt (options.firstFresh m maxLocals)) := by
  unfold Options.allocator Options.firstFresh
  cases options.placement <;> rfl

/-- **Fresh slots never collide.** Ask for variables of any types in turn, once the code of a method
has begun. The variables that are granted get slots in a row, from the first fresh one to 65535 at
the latest, and the width is the sum of theirs; the requests that were refused leave no trace:
without them the state and all other answers are the same. If the variables come in behind the
arguments then the slots that move to make room keep their order and stay clear of them. -/
theorem Allocator.allocateAll_fresh (options : Options) (m : DeclaredMethod) (maxLocals : UInt16)
    (types : List FieldType) :
    let a := (options.allocator m).begin maxLocals
    let b := (a.allocateAll types).1
    let given := granted types (a.allocateAll types).2
    (a.allocateAll types).2.length = types.length ∧
    FreshSlots (options.firstFresh m maxLocals) b given ∧
    a.allocateAll (given.map Prod.snd) = (b, given.map fun g => .ok g.1) ∧
    (options.placement = .behindArguments →
      let p := ((Insertion.ofMethod m options.policy).allocateAll types).1
      b = .insertion p ∧ p.ClearOf m.first given) := by
  intro a b given
  have hgrants : Grants a given b := grants_allocateAll a types
  refine ⟨length_allocateAll a types, hgrants.freshSlots (options.range?_begin m maxLocals),
    hgrants.allocateAll_eq, fun hplacement => ?_⟩
  have ha : a = .insertion (.ofMethod m options.policy) := by
    simp only [a, Options.allocator, hplacement]
    rfl
  have hb : b = .insertion ((Insertion.ofMethod m options.policy).allocateAll types).1 := by
    simp only [b, ha, allocateAll_insertion]
  rw [ha, hb] at hgrants
  exact ⟨hb, Insertion.clearOf_of_grants hgrants⟩

/-- Close to the limit, a `long` is refused between one that is granted and an `int`; and behind the
argument of a method the slots from 1 on move by three, up to the slot 65532. -/
theorem Allocator.allocateAll_fresh_refused :
    let a := (Options.allocator ⟨.behindAll, .spellOut⟩ Insertion.sampleMethod).begin 65532
    let wide := [.ofBase .long, .ofBase .long, .ofBase .int]
    (a.allocateAll wide).2 = [.ok 65532, .error (.localsOverflow 65536), .ok 65534] ∧
    FreshSlots 65532 (a.allocateAll wide).1 [(65532, .ofBase .long), (65534, .ofBase .int)] ∧
    let p := ((Insertion.ofMethod Insertion.sampleMethod .spellOut).allocateAll
      [.ofBase .long, .ofBase .int]).1
    p.ClearOf 1 [(1, .ofBase .long), (3, .ofBase .int)] ∧ p.relocate 65532 = .ok 65535 ∧
      p.relocate 65533 = .error (.localsOverflow 65536) := by
  intro a wide
  have hfresh := (allocateAll_fresh ⟨.behindAll, .spellOut⟩ Insertion.sampleMethod 65532 wide).2.1
  have hclear := ((allocateAll_fresh .standard Insertion.sampleMethod 4
    [.ofBase .long, .ofBase .int]).2.2.2 rfl).2
  exact ⟨rfl, hfresh, hclear, rfl, rfl⟩

end FreshLocal
