import FreshLocal.Proofs.AnnotationBytes
import FreshLocal.Proofs.TakenBytes

/-!
# Annotations are copied

The list of annotations in an attribute is read to change the positions and the slots
in it, and most of each annotation is kept as bytes. What is written for a list that
was read is what it was read from, byte for byte.

An annotation has to be passed over to find its end, and its element values nest. The
source of that recursion is `skipTagged`: a value behind its tag may hold annotations
and values again. `skipValue` bounds how deep it goes by the bytes ahead.

**Argument.** Each part takes its own bytes (`Reader.Takes`), and what was passed over
is kept as it is. As for the bound: a value takes its tag before it looks into itself,
so the values inside have fewer bytes ahead than it has. A nesting deeper than the bytes
ahead is never asked for, whatever would happen there (`agreeWithin_nested`).

* `AnnotatedType.takes_read`: an annotation is taken from its own bytes.
* `AnnotatedType.agreeWithin_nested`: **the bound is never reached**.
* `AnnotatedType.writeTable_of_readTable`: **a list that was read** is written as it was.
-/

namespace FreshLocal

open Reader

variable {α β : Type}

/-! ## What an annotation is taken from -/

theorem LocalRange.takes_read : read.Takes fun r taken => taken = r.write := by
  refine takes_u16.bind fun start taken hstart => takes_u16.bind fun len more hlen => ?_
  refine takes_u16.bind fun slot rest hslot => ?_
  dsimp only
  split
  · rename_i hstop
    refine takes_pure ?_
    have hlength : UInt16.ofNat (start.toNat + len.toNat) - start = len := by
      rw [UInt16.ofNat_add, UInt16.ofNat_toNat, UInt16.ofNat_toNat, UInt16.add_comm,
        UInt16.add_sub_cancel]
    simp only [write, hlength, hstart, hlen, hslot, List.append_assoc, List.append_nil]
  · exact takes_throw

theorem AnnotationTarget.takes_read : read.Takes fun t taken => taken = t.write := by
  refine takes_u8.bind fun kind taken htaken => ?_
  subst htaken
  split
  · rename_i hlocal
    refine ((takes_counted_write LocalRange.takes_read).mono fun ranges more hmore => ?_).map
    have hcode : (localVariable (decide (kind = 0x41)) ranges).code = kind := by
      rcases hlocal with rfl | rfl <;> rfl
    simp only [write, hcode, hmore, Bytes.u8]
  · split
    · rename_i hhandler
      refine (takes_u16.mono fun index more hmore => ?_).map
      simp only [write, code, hhandler, hmore, Bytes.u8]
    · split
      · refine (takes_u16.mono fun at_ more hmore => ?_).map
        simp only [write, code, hmore, Bytes.u8]
      · split
        · have hat : (typeArgument kind <$> u16 : Reader (UInt8 → AnnotationTarget UInt16)).Takes
              fun g taken => ∃ at_, g = typeArgument kind at_ ∧ taken = Bytes.u16 at_ :=
            (takes_u16.mono fun at_ taken htaken => ⟨at_, rfl, htaken⟩).map
          refine hat.bind fun g more hg => (takes_u8.mono fun index last hlast => ?_).map
          obtain ⟨at_, rfl, rfl⟩ := hg
          simp only [write, code, hlast, Bytes.u8]
        · exact takes_throw

namespace AnnotatedType

/-- **What is passed over** is kept. -/
theorem takes_readBody : readBody.Takes fun body taken => taken = body := by
  intro c body c' h
  unfold readBody at h
  split at h
  · cases h
  · rename_i c'' hskip
    cases h
    obtain ⟨taken, ha, ho, -⟩ := replays_skipBody (replays_skipValue c.ahead) c () c' hskip
    refine ⟨taken, ha, ?_⟩
    rw [ho, ha, Nat.add_sub_cancel_left, List.take_left]

/-- **An annotation is taken from its own bytes.** -/
theorem takes_read (visible : Bool) : (read visible).Takes fun a taken => taken = a.write := by
  refine AnnotationTarget.takes_read.bind fun target taken htarget => ?_
  refine takes_u8.bind fun steps more hsteps => (takes_bytes _).bind fun path last hpath => ?_
  refine takes_readBody.bind fun body rest hbody => takes_pure ?_
  obtain ⟨rfl, hlen⟩ := hpath
  have hcount : UInt8.ofNat (last.length / 2) = steps := by
    rw [hlen, Nat.mul_div_cancel_left _ (by decide), UInt8.ofNat_toNat]
  simp only [write, htarget, hsteps, hbody, hcount, Bytes.u8, List.append_assoc, List.append_nil]

/-! ## How deep values nest -/

/-- The readers do the same wherever at most `n` bytes are ahead. -/
def AgreeWithin (n : Nat) (r r' : Reader α) : Prop := ∀ c : Cursor, c.ahead.length ≤ n → r c = r' c

section Agreement

variable {n : Nat} {r r' : Reader α} {f f' : α → Reader β} {value value' : Reader Unit}

theorem AgreeWithin.refl (r : Reader α) : AgreeWithin n r r := fun _ _ => rfl

/-- A step that goes forward leaves no more bytes ahead for what comes behind it. -/
theorem AgreeWithin.bind (h : AgreeWithin n r r') (hr : r.Advances)
    (h' : ∀ x, AgreeWithin n (f x) (f' x)) : AgreeWithin n (r >>= f) (r' >>= f') := by
  intro c hc
  rw [bind_apply, bind_apply, ← h c hc]
  cases hx : r c with
  | error fault => rfl
  | ok p =>
    obtain ⟨taken, ha, -⟩ := hr c p.1 p.2 hx
    rw [ha, List.length_append] at hc
    exact h' p.1 p.2 (by omega)

theorem AgreeWithin.times (h : AgreeWithin n r r') (hr : r.Advances) (count : Nat) :
    AgreeWithin n (times count r) (times count r') := by
  suffices hdone : ∀ done, AgreeWithin n (timesOnto r count done) (timesOnto r' count done) from
    hdone []
  induction count with
  | zero => exact fun done => .refl _
  | succ count ih =>
    intro done
    rw [timesOnto_succ, timesOnto_succ]
    exact h.bind hr fun x => ih (x :: done)

/-- **An annotation** asks for the values in it at places with no more bytes ahead. -/
theorem agreeWithin_skipBody (h : AgreeWithin n value value') (hv : value.Advances) :
    AgreeWithin n (skipBody value) (skipBody value') := by
  refine (AgreeWithin.refl _).bind advances_u16 fun _ => ?_
  refine (AgreeWithin.refl _).bind advances_u16 fun pairs => ?_
  have hpair := (AgreeWithin.refl u16).bind advances_u16 fun _ => h
  have hforward : (u16 >>= fun _ => value).Advances := advances_u16.bind fun _ => hv
  exact (hpair.times hforward pairs.toNat).bind (advances_times hforward _) fun _ => .refl _

/-- **What stands behind the tag of a value** does so, too. -/
theorem agreeWithin_skipTagged (h : AgreeWithin n value value') (hv : value.Advances)
    (tag : UInt8) :
    AgreeWithin n (skipTagged value tag) (skipTagged value' tag) := by
  unfold skipTagged
  split
  · exact .refl _
  · split
    · exact .refl _
    · split
      · exact agreeWithin_skipBody h hv
      · split
        · refine (AgreeWithin.refl _).bind advances_u16 fun count => ?_
          exact (h.times hv _).bind (advances_times hv _) fun _ => .refl _
        · exact .refl _

/-- A value takes its tag before it looks into itself. -/
theorem agreeWithin_tagged (h : AgreeWithin n value value') (hv : value.Advances) :
    AgreeWithin (n + 1) (u8 >>= skipTagged value) (u8 >>= skipTagged value') := by
  intro c hc
  rw [bind_apply, bind_apply]
  cases hx : u8 c with
  | error fault => rfl
  | ok p =>
    obtain ⟨ha, -⟩ := u8_eq_ok hx
    rw [ha, List.length_cons] at hc
    exact agreeWithin_skipTagged h hv p.1 p.2 (by omega)

end Agreement

/-- Pass over the value of an element, down to the given depth; `deeper` passes over the values
that nest deeper. -/
def nested (deeper : Reader Unit) : (depth : Nat) → Reader Unit
  | 0 => deeper
  | depth + 1 => u8 >>= skipTagged (nested deeper depth)

theorem advances_skipValue (room : Bytes) : (skipValue room).Advances := by
  intro c x c' hx
  obtain ⟨taken, ha, ho, -⟩ := replays_skipValue room c x c' hx
  exact ⟨taken, ha, ho⟩

/-- **No value nests deeper than there are bytes ahead**: what would be done there does not matter,
and the room that `skipValue` is given is enough. -/
theorem agreeWithin_nested (deeper : Reader Unit) (n : Nat) {depth : Nat} (hdepth : n < depth)
    {room : Bytes} (hroom : n ≤ room.length) :
    AgreeWithin n (skipValue room) (nested deeper depth) := by
  induction n generalizing depth room with
  | zero =>
    rintro ⟨o, ahead⟩ hc
    obtain rfl : ahead = [] := List.length_eq_zero_iff.1 (Nat.le_zero.1 hc)
    obtain ⟨depth, rfl⟩ : ∃ d, depth = d + 1 := ⟨depth - 1, by omega⟩
    cases room <;> rfl
  | succ n ih =>
    obtain ⟨depth, rfl⟩ : ∃ d, depth = d + 1 := ⟨depth - 1, by omega⟩
    obtain _ | ⟨b, room⟩ := room
    · cases hroom
    rw [List.length_cons] at hroom
    rw [skipValue_cons]
    exact agreeWithin_tagged (ih (by omega) (by omega)) (advances_skipValue room)

/-! ## Lists of annotations -/

/-- **A list of annotations that was read is written as it was**, byte for byte, and is read again
from what was written. On any bytes, those of no annotation included, the recursion that passes
over an annotation and its values comes to an end: it goes no deeper than there are bytes ahead, so
that its answer does not depend on what would be done there. -/
theorem writeTable_of_readTable :
    (∀ (visible : Bool) (info : Bytes) (list : List (AnnotatedType UInt16)),
      readTable visible info = .ok list →
        writeTable list = info ∧ readTable visible (writeTable list) = .ok list) ∧
    ∀ (c : Cursor) (deeper : Reader Unit) (depth : Nat), c.ahead.length < depth →
      nested deeper depth c = skipValue c.ahead c ∧
        skipBody (nested deeper depth) c = skipBody (skipValue c.ahead) c := by
  refine ⟨fun visible info list h => ?_, fun c deeper depth hdepth => ?_⟩
  · have htaken := (takes_counted_write (takes_read visible)).of_whole h
    have hwritten : writeTable list = info := htaken.symm
    exact ⟨hwritten, by rw [hwritten]; exact h⟩
  · have hagree := agreeWithin_nested deeper c.ahead.length hdepth (le_refl c.ahead.length)
    have hskip := agreeWithin_skipBody hagree (advances_skipValue c.ahead)
    exact ⟨(hagree c le_rfl).symm, (hskip c le_rfl).symm⟩

/-- Two annotations. The first is on the variable in the slot 3 from 4 to 10 and holds a list of two
values and another annotation; the second is on the instruction at 7. -/
def nestedTable : Bytes := [
  0, 2,
  0x40, 0, 1, 0, 4, 0, 6, 0, 3, 1, 3, 0,
  0, 20, 0, 2, 0, 21, 0x5B, 0, 2, 0x49, 0, 22, 0x49, 0, 23, 0, 24, 0x40, 0, 25, 0, 0,
  0x44, 0, 7, 0, 0, 26, 0, 0]

def nestedAnnotations : List (AnnotatedType UInt16) := [
  ⟨true, .localVariable false [⟨4, 10, 3⟩], [3, 0],
    [0, 20, 0, 2, 0, 21, 0x5B, 0, 2, 0x49, 0, 22, 0x49, 0, 23, 0, 24, 0x40, 0, 25, 0, 0]⟩,
  ⟨true, .instruction 0x44 7, [], [0, 26, 0, 0]⟩]

/-- The list is written as it was read. A value that is a list of itself, and is cut off, is refused
at the end of the bytes, also if nothing is done below the depth of its bytes. -/
theorem writeTable_of_readTable_nested :
    readTable true nestedTable = .ok nestedAnnotations ∧
      writeTable nestedAnnotations = nestedTable ∧
      nested (pure ()) 7 (.start [0x5B, 0, 1, 0x5B, 0, 1]) = .error .truncated := by
  have hread : readTable true nestedTable = .ok nestedAnnotations := by decide +kernel
  refine ⟨hread, (writeTable_of_readTable.1 true nestedTable nestedAnnotations hread).1, ?_⟩
  exact (writeTable_of_readTable.2 (.start [0x5B, 0, 1, 0x5B, 0, 1]) (pure ()) 7 (by decide)).1

end AnnotatedType

end FreshLocal
