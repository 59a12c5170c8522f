import FreshLocal.AnnotatedType
import FreshLocal.Proofs.Reading

/-!
# Type annotations as bytes

The body of an annotation is kept as bytes. Passing over it depends on nothing
but these bytes: the room that bounds how deep its values nest is larger where
more bytes follow, and the bytes of an annotation are room enough for it. So the
bytes of an annotation that was read are read as one annotation wherever they
stand.

* `Replays`: a reader would take the same bytes again, elsewhere and in any room.
* `IsAnnotationBody`: bytes that are read as one annotation.
* `AnnotatedType.finds_write`: **an annotation is read back from its bytes**.
* `AnnotatedType.ensures_fits`: what was read can be written.
-/

namespace FreshLocal

open Reader

variable {α β : Type} {o : Nat}

/-- What the reader takes, the readers `again` take as well, wherever it stands and in any room
that is as long. -/
def Replays (r : Reader α) (again : Bytes → Reader α) : Prop :=
  ∀ c x c', r c = .ok (x, c') → ∃ taken, c.ahead = taken ++ c'.ahead ∧
    c'.offset = c.offset + taken.length ∧
    ∀ room, taken.length ≤ room.length → ∀ o, (again room).Finds o taken x

namespace Replays

variable {r : Reader α} {again : Bytes → Reader α}
  {f : α → Reader β} {again' : Bytes → α → Reader β}

theorem pure (x : α) : Replays (pure x) fun _ => pure x := by
  rintro c _ _ ⟨⟩
  exact ⟨[], rfl, rfl, fun _ _ _ => finds_pure x⟩

theorem throw {fault : DecodeFault} : Replays (throw fault : Reader α) again := by
  rintro c _ _ ⟨⟩

theorem u8 : Replays u8 fun _ => Reader.u8 := by
  intro c b c' h
  obtain ⟨ha, ho⟩ := u8_eq_ok h
  exact ⟨[b], ha, ho, fun _ _ _ => finds_u8 b⟩

theorem bind (h : Replays r again) (h' : ∀ x, Replays (f x) fun room => again' room x) :
    Replays (r >>= f) fun room => again room >>= again' room := by
  intro c y c'' hy
  obtain ⟨x, c', hx, hy⟩ := bind_eq_ok.1 hy
  obtain ⟨taken, ha, ho, hagain⟩ := h c x c' hx
  obtain ⟨taken', ha', ho', hagain'⟩ := h' x c' y c'' hy
  refine ⟨taken ++ taken', ?_, ?_, fun room hroom o => ?_⟩
  · rw [ha, ha', List.append_assoc]
  · rw [ho', ho, List.length_append, Nat.add_assoc]
  · rw [List.length_append] at hroom
    exact (hagain room (by omega) o).bind (hagain' room (by omega) _)

theorem map (g : α → β) (h : Replays r again) : Replays (g <$> r) fun room => g <$> again room := by
  intro c y c' hy
  obtain ⟨x, hx, rfl⟩ := map_eq_ok.1 hy
  obtain ⟨taken, ha, ho, hagain⟩ := h c x c' hx
  exact ⟨taken, ha, ho, fun room hroom o => (hagain room hroom o).map g⟩

theorem numberFrom (high width : Nat) :
    Replays (numberFrom high width) fun _ => Reader.numberFrom high width := by
  induction width generalizing high with
  | zero => exact pure high
  | succ width ih => exact u8.bind fun b => ih _

theorem u16 : Replays u16 fun _ => Reader.u16 := (numberFrom 0 2).map _

theorem timesOnto (h : Replays r again) (n : Nat) (done : List α) :
    Replays (timesOnto r n done) fun room => Reader.timesOnto (again room) n done := by
  induction n generalizing done with
  | zero => exact pure _
  | succ n ih =>
    simp only [timesOnto_succ]
    exact h.bind fun x => ih _

theorem times (h : Replays r again) (n : Nat) :
    Replays (times n r) fun room => Reader.times n (again room) :=
  h.timesOnto n []

end Replays

namespace AnnotatedType

/-- Pass over the value of an element behind its tag, with `value` to pass over a value inside. -/
def skipTagged (value : Reader Unit) (tag : UInt8) : Reader Unit := do
  if isPlainValue tag then
    let _ ← Reader.u16
  else if tag = 0x65 then
    let _ ← Reader.u16
    let _ ← Reader.u16
  else if tag = 0x40 then skipBody value
  else if tag = 0x5B then
    let n ← Reader.u16
    let _ ← Reader.times n.toNat value
  else throw (.badElementValueTag tag)

theorem skipValue_cons (b : UInt8) (room : Bytes) :
    skipValue (b :: room) = Reader.u8 >>= skipTagged (skipValue room) := rfl

theorem replays_skipBody {value : Reader Unit} {again : Bytes → Reader Unit}
    (h : Replays value again) : Replays (skipBody value) fun room => skipBody (again room) := by
  refine Replays.u16.bind fun _ => Replays.u16.bind fun n => ?_
  exact ((Replays.u16.bind fun _ => h).times _).bind fun _ => Replays.pure _

theorem replays_skipTagged {value : Reader Unit} {again : Bytes → Reader Unit}
    (h : Replays value again) (tag : UInt8) :
    Replays (skipTagged value tag) fun room => skipTagged (again room) tag := by
  unfold skipTagged
  split
  · exact Replays.u16.bind fun _ => Replays.pure _
  · split
    · exact Replays.u16.bind fun _ => Replays.u16.bind fun _ => Replays.pure _
    · split
      · exact replays_skipBody h
      · split
        · exact Replays.u16.bind fun n => (h.times _).bind fun _ => Replays.pure _
        · exact Replays.throw

/-- **The room matters only in so far as there is enough of it.** -/
theorem replays_skipValue (room : Bytes) : Replays (skipValue room) skipValue := by
  induction room with
  | nil => exact Replays.throw
  | cons b room ih =>
    intro c x c'' hx
    rw [skipValue_cons] at hx
    obtain ⟨tag, c', htag, hx⟩ := bind_eq_ok.1 hx
    obtain ⟨ha, ho⟩ := u8_eq_ok htag
    obtain ⟨taken, ha', ho', hagain⟩ := replays_skipTagged ih tag c' x c'' hx
    refine ⟨tag :: taken, ?_, ?_, fun room' hroom o => ?_⟩
    · rw [ha, ha', List.cons_append]
    · rw [ho', ho, List.length_cons]; omega
    · -- The tag takes a byte of the room, and the values inside have enough of what is left.
      cases room' with
      | nil => simp at hroom
      | cons b' room' =>
        rw [List.length_cons, List.length_cons] at hroom
        rw [skipValue_cons]
        exact (finds_u8 tag).bind (hagain room' (by omega) _)

/-- Bytes that are read as one annotation, wherever they stand. -/
def IsAnnotationBody (body : Bytes) : Prop := ∀ o, readBody.Finds o body body

/-- **The bytes of an annotation that was read** are those of an annotation. -/
theorem ensures_isAnnotationBody : readBody.Ensures IsAnnotationBody := by
  intro c body c' h
  unfold readBody at h
  split at h
  · cases h
  · rename_i c'' hskip
    cases h
    obtain ⟨taken, ha, ho, hagain⟩ := replays_skipBody (replays_skipValue c.ahead) c () c' hskip
    have hbody : c.ahead.take (c'.offset - c.offset) = taken := by
      rw [ho, ha, Nat.add_sub_cancel_left, List.take_left]
    rw [hbody]
    intro o rest
    have hfound := hagain (taken ++ rest) (by simp) o rest
    simp only [readBody, hfound, Nat.add_sub_cancel_left, List.take_left]

end AnnotatedType

/-! ## Targets -/

/-- Can the range be written? -/
def LocalRange.Fits {π : Type} [LE π] (r : LocalRange π) : Prop := r.start ≤ r.stop

theorem LocalRange.finds_write {r : LocalRange UInt16} (h : r.Fits) : read.Finds o r.write r := by
  have hle : r.start.toNat ≤ r.stop.toNat := UInt16.le_iff_toNat_le.1 h
  have hlen : (r.stop - r.start).toNat = r.stop.toNat - r.start.toNat :=
    UInt16.toNat_sub_of_le _ _ h
  have hstop := r.stop.toNat_lt
  rw [write, List.append_assoc]
  refine (finds_u16 _).bind ((finds_u16 _).bind ((finds_u16 _).bind_nil ?_))
  have hsum : r.start.toNat + (r.stop - r.start).toNat = r.stop.toNat := by omega
  dsimp only
  rw [hsum, if_pos (by omega), UInt16.ofNat_toNat]
  exact finds_pure r

theorem LocalRange.ensures_fits : read.Ensures Fits := by
  refine Ensures.bind fun start => Ensures.bind fun len => Ensures.bind fun slot => ?_
  dsimp only
  split
  · refine ensures_pure ?_
    simp only [Fits]
    rw [UInt16.le_iff_toNat_le, UInt16.toNat_ofNat']
    omega
  · exact ensures_throw

namespace AnnotationTarget

variable {π : Type} [LE π]

/-- Can the target be written? -/
def Fits : AnnotationTarget π → Prop
  | localVariable _ ranges => ranges.length ≤ 65535 ∧ ∀ r ∈ ranges, r.Fits
  | handler _ => True
  | instruction kind _ => 0x43 ≤ kind ∧ kind ≤ 0x46
  | typeArgument kind _ _ => 0x47 ≤ kind ∧ kind ≤ 0x4B

theorem finds_write {t : AnnotationTarget UInt16} (h : t.Fits) : read.Finds o t.write t := by
  cases t with
  | localVariable isResource ranges =>
    have hranges := (finds_counted (o := o + 1) h.1
      fun r hr o => LocalRange.finds_write (h.2 r hr)).map (localVariable isResource)
    cases isResource with
    | false => exact (finds_u8 0x40).bind hranges
    | true => exact (finds_u8 0x41).bind hranges
  | handler index => exact (finds_u8 0x42).bind ((finds_u16 index).map _)
  | instruction kind at_ =>
    obtain ⟨h1, h2⟩ := h
    rw [UInt8.le_iff_toNat_le] at h1 h2
    simp only [UInt8.reduceToNat] at h1 h2
    refine (finds_u8 kind).bind ?_
    have h40 : ¬ (kind = 0x40 ∨ kind = 0x41) := by
      rw [← UInt8.toNat_inj, ← UInt8.toNat_inj]; simp; omega
    have h42 : ¬ kind = 0x42 := by rw [← UInt8.toNat_inj]; simp; omega
    have h43 : 0x43 ≤ kind ∧ kind ≤ 0x46 := by
      rw [UInt8.le_iff_toNat_le, UInt8.le_iff_toNat_le]; exact ⟨h1, h2⟩
    rw [if_neg h40, if_neg h42, if_pos h43]
    exact (finds_u16 at_).map _
  | typeArgument kind at_ index =>
    obtain ⟨h1, h2⟩ := h
    rw [UInt8.le_iff_toNat_le] at h1 h2
    simp only [UInt8.reduceToNat] at h1 h2
    refine (finds_u8 kind).bind ?_
    have h40 : ¬ (kind = 0x40 ∨ kind = 0x41) := by
      rw [← UInt8.toNat_inj, ← UInt8.toNat_inj]; simp; omega
    have h42 : ¬ kind = 0x42 := by rw [← UInt8.toNat_inj]; simp; omega
    have h43 : ¬ (0x43 ≤ kind ∧ kind ≤ 0x46) := by
      rw [UInt8.le_iff_toNat_le, UInt8.le_iff_toNat_le]; simp; omega
    have h47 : 0x47 ≤ kind ∧ kind ≤ 0x4B := by
      rw [UInt8.le_iff_toNat_le, UInt8.le_iff_toNat_le]; exact ⟨h1, h2⟩
    rw [if_neg h40, if_neg h42, if_neg h43, if_pos h47]
    exact ((finds_u16 at_).map _).seq (finds_u8 index)

theorem ensures_fits : read.Ensures Fits := by
  refine Ensures.bind fun kind => ?_
  split
  · exact Ensures.map (ensures_counted LocalRange.ensures_fits)
  · split
    · exact Ensures.map fun _ _ _ _ => trivial
    · split
      · rename_i h
        exact Ensures.map fun _ _ _ _ => h
      · split
        · rename_i h
          exact Ensures.bind_of (P := fun g => ∀ x, (g x).Fits)
            (Ensures.map fun _ _ _ _ _ => h) fun g hg => Ensures.map fun _ x _ _ => hg x
        · exact ensures_throw

end AnnotationTarget

namespace AnnotatedType

variable {π : Type} [LE π]

/-- Can the annotation be written? -/
structure Fits (a : AnnotatedType π) : Prop where
  target : a.target.Fits
  path : a.path.length % 2 = 0 ∧ a.path.length ≤ 510
  body : IsAnnotationBody a.body

/-- **An annotation is read back from its bytes.** -/
theorem finds_write {a : AnnotatedType UInt16} (h : a.Fits) :
    (read a.visible).Finds o a.write a := by
  obtain ⟨heven, hlen⟩ := h.path
  have hsteps : a.path.length = 2 * (UInt8.ofNat (a.path.length / 2)).toNat := by
    rw [UInt8.toNat_ofNat']
    omega
  have hwrite : a.write = a.target.write ++ (.u8 (UInt8.ofNat (a.path.length / 2)) ++
      (a.path ++ a.body)) := by
    simp only [write, List.append_assoc]
  rw [hwrite]
  refine (AnnotationTarget.finds_write h.target).bind ((finds_u8 _).bind ?_)
  exact (finds_bytes hsteps).bind ((h.body _).bind_nil (finds_pure a))

/-- **An annotation that was read** can be written. -/
theorem ensures_fits (visible : Bool) :
    (read visible).Ensures fun a => a.Fits ∧ a.visible = visible := by
  refine AnnotationTarget.ensures_fits.bind_of fun target htarget => Ensures.bind fun steps => ?_
  refine (ensures_bytes _).bind_of fun path hpath => ?_
  refine ensures_isAnnotationBody.bind_of fun body hbody => ensures_pure ⟨⟨htarget, ?_, hbody⟩, rfl⟩
  have hlt := steps.toNat_lt
  change path.length % 2 = 0 ∧ path.length ≤ 510
  omega

end AnnotatedType

end FreshLocal
