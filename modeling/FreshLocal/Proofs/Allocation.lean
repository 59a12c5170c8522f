import FreshLocal.Proofs.Insertion

/-!
# New slots at the boundary

A run of requests for new variables at the boundary of one method. A request
that is refused, because 16 bits cannot hold its slots, changes nothing.

* `allocateAll_spec`: the new variables stand one behind the other from the
  boundary on, and the list of their types is as wide as the range of their slots.
* `slotAt_insertLocals_relocate`: **frames and instructions agree on where locals
  moved**, and the new slots hold the new variables.
-/

namespace FreshLocal

/-- The type of a variable is as wide in a frame as in a descriptor. -/
theorem FieldType.width_localType {π : Type} (t : FieldType) :
    (t.localType : VerificationType String π).width = t.width := by
  obtain ⟨_ | n, e⟩ := t
  · cases e with
    | primitive b => cases b <;> rfl
    | object name => rfl
  · rfl

/-- **The two tables of widths agree** on any number of variables. -/
theorem slotCount_map_localType {π : Type} (types : List FieldType) :
    slotCount (types.map (FieldType.localType (π := π))) = (types.map FieldType.width).sum := by
  induction types with
  | nil => rfl
  | cons t types ih =>
    rw [List.map_cons, List.map_cons, slotCount_cons, List.sum_cons, FieldType.width_localType, ih]

/-- A slot that 16 bits can hold is the number that was asked for. -/
theorem slot16_eq_ok {n : Nat} {slot : UInt16} : slot16 n = .ok slot ↔ slot.toNat = n := by
  have hlt := slot.toNat_lt
  unfold slot16
  split
  · rw [Except.ok.injEq, ← UInt16.toNat_inj,
      UInt16.toNat_ofNat_of_lt' (by unfold UInt16.size; omega), eq_comm]
  · simp only [reduceCtorEq, false_iff]
    omega

namespace Insertion

variable {p q : Insertion} {t : FieldType} {slot slot' : UInt16}

/-- Ask for variables of some types in turn, and go on when one is refused. -/
def allocateAll (p : Insertion) : List FieldType → Insertion × List (Except Fault UInt16)
  | [] => (p, [])
  | t :: rest =>
    match p.allocate t with
    | .error fault =>
      let (q, answers) := p.allocateAll rest
      (q, .error fault :: answers)
    | .ok (slot, p) =>
      let (q, answers) := p.allocateAll rest
      (q, .ok slot :: answers)

/-- **What a request that is granted does.** -/
theorem allocate_eq_ok : p.allocate t = .ok (slot, q) ↔
    p.range.stop + t.width ≤ 65535 ∧ slot = UInt16.ofNat p.range.stop ∧
      q = { p with
        range := { p.range with width := p.range.width + t.width }
        inserted := p.inserted ++ [t.localType] } := by
  unfold allocate SlotRange.extend
  split
  · rename_i h
    split at h
    · cases h
    · simp only [reduceCtorEq, false_iff]
      omega
  · rename_i s r h
    split at h
    · cases h
      simp only [Except.ok.injEq, Prod.mk.injEq]
      constructor
      · rintro ⟨rfl, rfl⟩; exact ⟨by assumption, rfl, rfl⟩
      · rintro ⟨-, rfl, rfl⟩; exact ⟨rfl, rfl⟩
    · cases h

/-- **What a run of requests does.** The types of the granted ones are added in order, and each
got the slot behind those before it. -/
theorem allocateAll_spec (types : List FieldType) (p : Insertion) :
    ∃ more : List CodeType,
      (p.allocateAll types).1 = { p with
        range := { p.range with width := p.range.width + slotCount more }
        inserted := p.inserted ++ more } ∧
      ∀ (i : Nat) (t : FieldType) (slot : UInt16), types[i]? = some t →
        (p.allocateAll types).2[i]? = some (.ok slot) →
        ∃ before after, more = before ++ t.localType :: after ∧
          slot.toNat = p.range.stop + slotCount before := by
  induction types generalizing p with
  | nil => exact ⟨[], by simp [allocateAll], by simp⟩
  | cons t rest ih =>
    cases h : p.allocate t with
    | error fault =>
      obtain ⟨more, h1, h2⟩ := ih p
      refine ⟨more, by simp only [allocateAll, h]; exact h1, ?_⟩
      intro i t' slot ht hs
      simp only [allocateAll, h] at hs
      cases i with
      | zero => simp at hs
      | succ i => exact h2 i t' slot (by simpa using ht) (by simpa using hs)
    | ok r =>
      obtain ⟨slot, q⟩ := r
      obtain ⟨hfit, rfl, rfl⟩ := allocate_eq_ok.1 h
      obtain ⟨more, h1, h2⟩ := ih { p with
        range := { p.range with width := p.range.width + t.width }
        inserted := p.inserted ++ [t.localType] }
      refine ⟨t.localType :: more, ?_, ?_⟩
      · simp only [allocateAll, h]
        rw [h1]
        simp only [slotCount_cons, FieldType.width_localType, List.append_assoc,
          List.singleton_append, Nat.add_assoc]
      · intro i t' slot ht hs
        simp only [allocateAll, h] at hs
        cases i with
        | zero =>
          simp only [List.getElem?_cons_zero, Option.some.injEq, Except.ok.injEq] at ht hs
          subst ht hs
          refine ⟨[], more, rfl, ?_⟩
          rw [UInt16.toNat_ofNat_of_lt' (by unfold UInt16.size; omega)]
          rfl
        | succ i =>
          obtain ⟨before, after, rfl, hslot⟩ := h2 i t' slot (by simpa using ht) (by simpa using hs)
          refine ⟨t.localType :: before, after, rfl, ?_⟩
          simp only [slotCount_cons, FieldType.width_localType, SlotRange.stop] at hslot ⊢
          omega

/-- **Where a slot goes.** -/
theorem relocate_eq_ok : p.relocate slot = .ok slot' ↔
    (slot.toNat < p.boundary ∧ slot'.toNat = slot.toNat) ∨
      (p.boundary ≤ slot.toNat ∧ slot'.toNat = slot.toNat + p.range.width) := by
  unfold relocate
  split
  · rename_i h
    simp only [Except.ok.injEq, h, true_and, Nat.not_le.2 h, false_and, or_false]
    rw [eq_comm, UInt16.toNat_inj]
  · rename_i h
    simp only [h, false_and, false_or, Nat.le_of_not_lt h, true_and]
    exact slot16_eq_ok

/-- **Frames and instructions agree on where locals moved.** After any requests for new
variables, let `widened` be some locals with the new variables in them. A slot holds there, at its
new place, what it held before; and the slots from the boundary on hold exactly the new
variables, each from the slot on that its request was answered with. -/
theorem slotAt_insertLocals_relocate (m : DeclaredMethod) (policy : RelativeFrames)
    (types : List FieldType) (p : Insertion) (answers : List (Except Fault UInt16))
    (hp : (ofMethod m policy).allocateAll types = (p, answers))
    (locals widened : List CodeType)
    (hw : insertLocals p.boundary p.inserted locals = .ok widened) :
    (∀ slot slot', p.relocate slot = .ok slot' →
      slotAt widened slot'.toNat = slotAt locals slot.toNat) ∧
    ((slotContents widened).drop m.first).take p.range.width = slotContents p.inserted ∧
    ∀ (i : Nat) (t : FieldType) (slot : UInt16),
      types[i]? = some t → answers[i]? = some (.ok slot) →
      ∃ before after, p.inserted = before ++ t.localType :: after ∧
        slot.toNat = m.first + slotCount before ∧
        slotAt widened slot.toNat = .value t.localType ∧
        (t.width = 2 → slotAt widened (slot.toNat + 1) = .secondHalf) := by
  obtain ⟨more, h1, h2⟩ := allocateAll_spec types (ofMethod m policy)
  rw [hp] at h1 h2
  simp only [ofMethod, SlotRange.emptyAt, SlotRange.stop, List.nil_append, Nat.zero_add] at h1 h2
  subst h1
  simp only [boundary] at hw ⊢
  refine ⟨?_, slotContents_insertLocals hw, ?_⟩
  · intro slot slot' hr
    rcases relocate_eq_ok.1 hr with ⟨hlt, he⟩ | ⟨hle, he⟩
    · rw [he]; exact slotAt_insertLocals_below hw hlt
    · rw [he]; exact slotAt_insertLocals_above hw hle
  · intro i t slot ht hs
    obtain ⟨before, after, rfl, hslot⟩ := h2 i t slot ht hs
    refine ⟨before, after, rfl, hslot, ?_⟩
    obtain ⟨pre, post, missing, rfl, hb, -, rfl⟩ := insertLocals_eq_ok.1 hw
    have hcount : slotCount (pre ++ List.replicate missing .top ++ before) = slot.toNat := by
      simp only [slotCount_append, slotCount_replicate_top]
      omega
    have hsplit : pre ++ List.replicate missing .top ++ (before ++ t.localType :: after) ++ post =
        (pre ++ List.replicate missing .top ++ before) ++ t.localType :: (after ++ post) := by
      simp
    rw [hsplit, ← hcount]
    refine ⟨slotAt_value _ _ _, fun hw2 => slotAt_secondHalf _ _ ?_⟩
    rw [FieldType.width_localType, hw2]

/-- A static method with one `int` as its argument. -/
def sampleMethod : DeclaredMethod where
  flags := .ofBits 0x0008
  name := ⟨"run", by decide⟩
  descriptor := ⟨[.ofBase .int], none⟩
  owner := ⟨"me/Owner", by decide⟩

/-- A `long` and an `int` come in before a `double`, which moves from the slot 1 to the slot 4. -/
theorem slotAt_insertLocals_relocate_wide :
    insertLocals 1 [.long, .integer] [.integer, .double] =
        .ok ([.integer, .long, .integer, .double] : List CodeType) ∧
      slotAt ([.integer, .long, .integer, .double] : List CodeType) 4 =
        slotAt ([.integer, .double] : List CodeType) 1 :=
  ⟨rfl, (slotAt_insertLocals_relocate sampleMethod .spellOut [.ofBase .long, .ofBase .int] _ _ rfl
    [.integer, .double] [.integer, .long, .integer, .double] rfl).1 1 4 rfl⟩

end Insertion

end FreshLocal
