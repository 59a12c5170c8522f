import FreshLocal.Proofs.Reading

/-!
# The bytes that a reader takes

A value is read from the front of the bytes ahead. Where it can be written in one
way only, the bytes that were taken are those that are written for it; elsewhere
they are one of several spellings.

* `Reader.Takes`: what is true of a value and the bytes that were taken for it.
* `takes_u16`, `takes_u32`, `takes_u64`: **a number is taken from its own bytes**.
* `takes_counted`: a list is taken from its length and the bytes of its values.
-/

namespace FreshLocal

namespace Reader

variable {α β : Type} {r : Reader α} {f : α → Reader β} {P : α → Bytes → Prop}
  {Q : β → Bytes → Prop} {x : α}

/-- Of each value that the reader yields and the bytes that it took for it something is true. -/
def Takes (r : Reader α) (P : α → Bytes → Prop) : Prop :=
  ∀ c x c', r c = .ok (x, c') → ∃ taken, c.ahead = taken ++ c'.ahead ∧ P x taken

theorem takes_pure (h : P x []) : (pure x : Reader α).Takes P := by
  rintro c _ _ ⟨⟩
  exact ⟨[], rfl, h⟩

theorem takes_throw {fault : DecodeFault} : (throw fault : Reader α).Takes P := by
  rintro c _ _ ⟨⟩

/-- **Two steps in a row** take their bytes one behind the other. -/
theorem Takes.bind (h : r.Takes P)
    (h' : ∀ x taken, P x taken → (f x).Takes fun y more => Q y (taken ++ more)) :
    (r >>= f).Takes Q := by
  intro c y c'' hy
  obtain ⟨x, c', hx, hy⟩ := bind_eq_ok.1 hy
  obtain ⟨taken, ha, htaken⟩ := h c x c' hx
  obtain ⟨more, ha', hmore⟩ := h' x taken htaken c' y c'' hy
  exact ⟨taken ++ more, by rw [ha, ha', List.append_assoc], hmore⟩

theorem Takes.map {g : α → β} (h : r.Takes fun x taken => Q (g x) taken) : (g <$> r).Takes Q := by
  intro c y c' hy
  obtain ⟨x, hx, rfl⟩ := map_eq_ok.1 hy
  exact h c x c' hx

theorem Takes.mono {P' : α → Bytes → Prop} (h : r.Takes P)
    (hP : ∀ x taken, P x taken → P' x taken) : r.Takes P' := by
  intro c x c' hx
  obtain ⟨taken, ha, htaken⟩ := h c x c' hx
  exact ⟨taken, ha, hP x taken htaken⟩

/-- A step that reads nothing takes nothing. -/
theorem takes_lift {e : Except DecodeFault α} (h : ∀ x, e = .ok x → P x []) :
    (liftM e : Reader α).Takes P := by
  intro c x c' hx
  obtain ⟨he, rfl⟩ := lift_eq_ok.1 hx
  exact ⟨[], rfl, h x he⟩

/-- The offset of the cursor is not among the bytes ahead. -/
theorem takes_offset : offset.Takes fun _ taken => taken = [] := by
  rintro c _ _ ⟨⟩
  exact ⟨[], rfl, rfl⟩

/-! ## Numbers -/

theorem takes_u8 : u8.Takes fun b taken => taken = [b] := by
  intro c b c' h
  obtain ⟨ha, -⟩ := u8_eq_ok h
  exact ⟨[b], ha, rfl⟩

/-- A number is taken from as many of its bytes as its width says, behind the digits before. -/
theorem takes_numberFrom (high width : Nat) : (numberFrom high width).Takes fun n taken =>
    taken = Bytes.number width n ∧ n / 256 ^ width = high := by
  induction width generalizing high with
  | zero => exact takes_pure ⟨rfl, by omega⟩
  | succ width ih =>
    refine takes_u8.bind fun b taken htaken => (ih (high * 256 + b.toNat)).mono ?_
    rintro n more ⟨hmore, hhigh⟩
    have hb := b.toNat_lt
    have hbyte : UInt8.ofNat (n / 256 ^ width) = b := by
      rw [hhigh, ← UInt8.toNat_inj, UInt8.toNat_ofNat']
      omega
    refine ⟨?_, ?_⟩
    · rw [htaken, hmore, Bytes.number_succ, hbyte]
      rfl
    · rw [Nat.pow_succ, ← Nat.div_div_eq_div_mul, hhigh]
      omega

/-- **A number is taken from its own bytes.** -/
theorem takes_number (width : Nat) : (number width).Takes fun n taken =>
    taken = Bytes.number width n ∧ n < 256 ^ width := by
  refine (takes_numberFrom 0 width).mono ?_
  rintro n taken ⟨htaken, hzero⟩
  refine ⟨htaken, ?_⟩
  have hpos : 0 < 256 ^ width := Nat.pow_pos (by decide)
  exact (Nat.div_eq_zero_iff_lt hpos).1 hzero

theorem takes_u16 : u16.Takes fun x taken => taken = Bytes.u16 x := by
  refine ((takes_number 2).mono ?_).map
  rintro n taken ⟨htaken, hlt⟩
  rw [Bytes.u16, UInt16.toNat_ofNat_of_lt' (by unfold UInt16.size; omega)]
  exact htaken

theorem takes_u32 : u32.Takes fun x taken => taken = Bytes.u32 x := by
  refine ((takes_number 4).mono ?_).map
  rintro n taken ⟨htaken, hlt⟩
  rw [Bytes.u32, UInt32.toNat_ofNat_of_lt' (by unfold UInt32.size; omega)]
  exact htaken

theorem takes_u64 : u64.Takes fun x taken => taken = Bytes.u64 x := by
  refine ((takes_number 8).mono ?_).map
  rintro n taken ⟨htaken, hlt⟩
  rw [Bytes.u64, UInt64.toNat_ofNat_of_lt' (by unfold UInt64.size; omega)]
  exact htaken

theorem takes_i8 : i8.Takes fun x taken => taken = Bytes.i8 x := by
  refine (takes_u8.mono ?_).map
  intro b taken htaken
  rw [htaken, Bytes.i8, UInt8.toUInt8_toInt8]

theorem takes_i16 : i16.Takes fun x taken => taken = Bytes.i16 x := by
  refine (takes_u16.mono ?_).map
  intro x taken htaken
  rw [htaken, Bytes.i16, UInt16.toUInt16_toInt16]

theorem takes_i32 : i32.Takes fun x taken => taken = Bytes.i32 x := by
  refine (takes_u32.mono ?_).map
  intro x taken htaken
  rw [htaken, Bytes.i32, UInt32.toUInt32_toInt32]

theorem takes_i64 : i64.Takes fun x taken => taken = Bytes.i64 x := by
  refine (takes_u64.mono ?_).map
  intro x taken htaken
  rw [htaken, Bytes.i64, UInt64.toUInt64_toInt64]

theorem takes_bytes (n : Nat) : (bytes n).Takes fun bs taken => taken = bs ∧ bs.length = n := by
  intro c bs c' h
  have hlen := ensures_bytes n c bs c' h
  simp only [bytes, List.splitAt_eq] at h
  split at h
  · cases h
    exact ⟨c.ahead.take n, (List.take_append_drop n _).symm, rfl, hlen⟩
  · cases h

/-! ## Lists -/

theorem takes_timesOnto (h : r.Takes P) (n : Nat) (done : List α) :
    (timesOnto r n done).Takes fun xs taken => ∃ more parts, xs = done.reverse ++ more ∧
      more.length = n ∧ List.Forall₂ P more parts ∧ taken = parts.flatten := by
  induction n generalizing done with
  | zero => exact takes_pure ⟨[], [], by simp, rfl, .nil, rfl⟩
  | succ n ih =>
    rw [timesOnto_succ]
    refine h.bind fun x taken hx => (ih (x :: done)).mono ?_
    rintro xs rest ⟨more, parts, rfl, hlen, hparts, rfl⟩
    exact ⟨x :: more, taken :: parts, by simp, by simp [hlen], .cons hx hparts, rfl⟩

/-- **Some values in a row** are taken from their bytes in a row. -/
theorem takes_times (h : r.Takes P) (n : Nat) : (times n r).Takes fun xs taken =>
    ∃ parts, xs.length = n ∧ List.Forall₂ P xs parts ∧ taken = parts.flatten := by
  refine (takes_timesOnto h n []).mono ?_
  rintro xs taken ⟨more, parts, rfl, hlen, hparts, htaken⟩
  exact ⟨parts, hlen, hparts, htaken⟩

/-- **A list behind its length** is taken from the length and the bytes of its values. -/
theorem takes_counted (h : r.Takes P) : (counted r).Takes fun xs taken =>
    ∃ parts, List.Forall₂ P xs parts ∧
      taken = Bytes.u16 (UInt16.ofNat xs.length) ++ parts.flatten := by
  refine takes_u16.bind fun n taken htaken => (takes_times h n.toNat).mono ?_
  rintro xs more ⟨parts, hlen, hparts, rfl⟩
  refine ⟨parts, hparts, ?_⟩
  rw [htaken, hlen, UInt16.ofNat_toNat]

/-- Some values in a row, each of which is taken from its own bytes. -/
theorem takes_times_write {write : α → Bytes} (h : r.Takes fun x taken => taken = write x)
    (n : Nat) : (times n r).Takes fun xs taken => xs.length = n ∧ taken = xs.flatMap write := by
  refine (takes_times h n).mono ?_
  rintro xs taken ⟨parts, hlen, hparts, rfl⟩
  have hflat : parts = xs.map write := by
    induction hparts generalizing n with
    | nil => rfl
    | cons hx _ ih => rw [hx, ih _ rfl]; rfl
  exact ⟨hlen, by rw [hflat, List.flatMap]⟩

/-- A list of which each value is taken from its own bytes is so, too. -/
theorem takes_counted_write {write : α → Bytes} (h : r.Takes fun x taken => taken = write x) :
    (counted r).Takes fun xs taken => taken = Bytes.counted write xs := by
  refine takes_u16.bind fun n taken htaken => (takes_times_write h n.toNat).mono ?_
  rintro xs more ⟨hlen, rfl⟩
  rw [htaken, Bytes.counted, hlen, UInt16.ofNat_toNat]

/-- What is found in the whole of some bytes is taken from these bytes. -/
theorem Takes.of_whole {what : String} {bs : Bytes} (hr : r.Takes P) (h : whole what r bs = .ok x) :
    P x bs := by
  unfold Reader.whole at h
  split at h
  · cases h
  · rename_i y c hy
    obtain ⟨taken, ha, htaken⟩ := hr _ y c hy
    split at h
    · rename_i hend
      cases h
      rw [List.isEmpty_iff.1 hend, List.append_nil] at ha
      have hbs : bs = taken := ha
      rw [hbs]
      exact htaken
    · cases h

end Reader

end FreshLocal
