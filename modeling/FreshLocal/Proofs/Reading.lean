import FreshLocal.Bytes
import FreshLocal.Proofs.Results

/-!
# What readers find

A reader **finds** a value in some bytes if it takes exactly these bytes off the
front, whatever follows them. What is written is found again; as nothing is said
of the bytes behind, the facts about the parts of a structure add up to one
about the whole.

* `Reader.Finds`: the bytes that a reader takes for a value.
* `Reader.Ensures`: what is true of every value that a reader yields.
* `Reader.Advances`: a reader passes over the front of the bytes ahead.
* `finds_number`, `finds_counted`: **numbers and lists are found again**.
-/

namespace FreshLocal

variable {α β : Type}

namespace Reader

variable {r : Reader α} {f : α → Reader β} {o : Nat} {bs cs : Bytes} {x : α} {y : β}

/-- At the offset `o`, the reader takes these bytes off the front and yields the value. -/
def Finds (r : Reader α) (o : Nat) (bs : Bytes) (x : α) : Prop :=
  ∀ rest, r ⟨o, bs ++ rest⟩ = .ok (x, ⟨o + bs.length, rest⟩)

/-- Every value that the reader yields has a property. -/
def Ensures (r : Reader α) (P : α → Prop) : Prop :=
  ∀ c x c', r c = .ok (x, c') → P x

/-- The reader goes forward over the bytes ahead. -/
def Advances (r : Reader α) : Prop :=
  ∀ c x c', r c = .ok (x, c') →
    ∃ taken, c.ahead = taken ++ c'.ahead ∧ c'.offset = c.offset + taken.length

/-! Steps in a row. -/

theorem bind_apply (r : Reader α) (f : α → Reader β) (c : Cursor) :
    (r >>= f) c = (r c).bind fun p => f p.1 p.2 := rfl

theorem map_apply (g : α → β) (r : Reader α) (c : Cursor) :
    (g <$> r) c = (r c).map fun p => (g p.1, p.2) := rfl

/-- **A step and what comes behind it** both succeed. -/
theorem bind_eq_ok {c c'' : Cursor} : (r >>= f) c = .ok (y, c'') ↔
    ∃ x c', r c = .ok (x, c') ∧ f x c' = .ok (y, c'') := by
  rw [bind_apply]
  rcases r c with fault | ⟨x, c'⟩
  · simp [Except.bind]
  · constructor
    · intro h; exact ⟨x, c', rfl, h⟩
    · rintro ⟨_, _, h, hy⟩; cases h; exact hy

theorem map_eq_ok {g : α → β} {c c' : Cursor} : (g <$> r) c = .ok (y, c') ↔
    ∃ x, r c = .ok (x, c') ∧ g x = y := by
  rw [map_apply]
  rcases r c with fault | ⟨x, c''⟩
  · simp [Except.map]
  · simp only [Except.map, Except.ok.injEq, Prod.mk.injEq]
    constructor
    · rintro ⟨rfl, rfl⟩; exact ⟨x, ⟨rfl, rfl⟩, rfl⟩
    · rintro ⟨_, ⟨rfl, rfl⟩, rfl⟩; exact ⟨rfl, rfl⟩

/-- A step that reads nothing. -/
theorem lift_eq_ok {e : Except DecodeFault α} {c c' : Cursor} :
    (liftM e : Reader α) c = .ok (x, c') ↔ e = .ok x ∧ c' = c := by
  cases e with
  | error fault => simp [liftM, monadLift, MonadLift.monadLift, StateT.lift, bind, Except.bind]
  | ok a =>
    simp [liftM, monadLift, MonadLift.monadLift, StateT.lift, bind, Except.bind, pure, Except.pure,
      eq_comm]

theorem u8_eq_ok {b : UInt8} {c c' : Cursor} (h : u8 c = .ok (b, c')) :
    c.ahead = b :: c'.ahead ∧ c'.offset = c.offset + 1 := by
  obtain ⟨o, _ | ⟨b', rest⟩⟩ := c
  · cases h
  · cases h; exact ⟨rfl, rfl⟩

/-! What is found, part by part. -/

theorem finds_pure (x : α) : (pure x : Reader α).Finds o [] x := fun _ => rfl

/-- **Two structures in a row** are found if each of them is. -/
theorem Finds.bind (h : r.Finds o bs x) (h' : (f x).Finds (o + bs.length) cs y) :
    (r >>= f).Finds o (bs ++ cs) y := by
  intro rest
  rw [bind_eq_ok]
  refine ⟨x, ⟨o + bs.length, cs ++ rest⟩, ?_, ?_⟩
  · rw [List.append_assoc, h]
  · rw [h', List.length_append, Nat.add_assoc]

theorem Finds.map (g : α → β) (h : r.Finds o bs x) : (g <$> r).Finds o bs (g x) := by
  intro rest
  rw [map_eq_ok]
  exact ⟨x, h rest, rfl⟩

theorem Finds.seq {g : α → β} {r' : Reader (α → β)} (h : r'.Finds o bs g)
    (h' : r.Finds (o + bs.length) cs x) : (r' <*> r).Finds o (bs ++ cs) (g x) := by
  have hseq : r' <*> r = r' >>= fun g => g <$> r := rfl
  rw [hseq]
  exact h.bind (h'.map g)

/-- The last step of a chain, which may not read anything. -/
theorem Finds.bind_nil (h : r.Finds o bs x) (h' : (f x).Finds (o + bs.length) [] y) :
    (r >>= f).Finds o bs y := by
  have := h.bind h'
  rwa [List.append_nil] at this

theorem finds_offset : Reader.offset.Finds o [] o := fun _ => rfl

theorem finds_u8 (b : UInt8) : u8.Finds o [b] b := fun _ => rfl

theorem finds_bytes {n : Nat} (h : bs.length = n) : (bytes n).Finds o bs bs := by
  intro rest
  subst h
  simp [bytes, List.splitAt_eq]

/-! What every value has, step by step. -/

theorem Ensures.bind {P : β → Prop} (h : ∀ x, (f x).Ensures P) : (r >>= f).Ensures P := by
  intro c y c'' hy
  obtain ⟨x, c', -, hy⟩ := bind_eq_ok.1 hy
  exact h x c' y c'' hy

/-- A step may use what was ensured of the value before it. -/
theorem Ensures.bind_of {P : α → Prop} {Q : β → Prop} (h : r.Ensures P)
    (h' : ∀ x, P x → (f x).Ensures Q) : (r >>= f).Ensures Q := by
  intro c y c'' hy
  obtain ⟨x, c', hx, hy⟩ := bind_eq_ok.1 hy
  exact h' x (h c x c' hx) c' y c'' hy

theorem Ensures.map {P : β → Prop} {g : α → β} (h : r.Ensures fun x => P (g x)) :
    (g <$> r).Ensures P := by
  intro c y c' hy
  obtain ⟨x, hx, rfl⟩ := map_eq_ok.1 hy
  exact h c x c' hx

theorem ensures_pure {P : α → Prop} (h : P x) : (pure x : Reader α).Ensures P := by
  rintro c _ _ ⟨⟩
  exact h

theorem ensures_throw {P : α → Prop} {fault : DecodeFault} :
    (throw fault : Reader α).Ensures P := by
  rintro c _ _ ⟨⟩

theorem ensures_bytes (n : Nat) : (bytes n).Ensures fun bs => bs.length = n := by
  intro c bs c' h
  simp only [bytes, List.splitAt_eq] at h
  split at h
  · rename_i hlen; cases h; exact hlen
  · cases h

/-! Going forward, step by step. -/

theorem advances_pure (x : α) : (pure x : Reader α).Advances := by
  rintro c _ _ ⟨⟩
  exact ⟨[], rfl, rfl⟩

theorem advances_throw {fault : DecodeFault} : (throw fault : Reader α).Advances := by
  rintro c _ _ ⟨⟩

theorem Advances.bind (h : r.Advances) (h' : ∀ x, (f x).Advances) : (r >>= f).Advances := by
  intro c y c'' hy
  obtain ⟨x, c', hx, hy⟩ := bind_eq_ok.1 hy
  obtain ⟨taken, ha, ho⟩ := h c x c' hx
  obtain ⟨taken', ha', ho'⟩ := h' x c' y c'' hy
  refine ⟨taken ++ taken', ?_, ?_⟩
  · rw [ha, ha', List.append_assoc]
  · rw [ho', ho, List.length_append, Nat.add_assoc]

theorem Advances.map (g : α → β) (h : r.Advances) : (g <$> r).Advances := by
  intro c y c' hy
  obtain ⟨x, hx, -⟩ := map_eq_ok.1 hy
  exact h c x c' hx

theorem Advances.seq {r' : Reader (α → β)} (h : r'.Advances) (h' : r.Advances) :
    (r' <*> r).Advances :=
  Advances.bind h fun g => h'.map g

theorem advances_u8 : u8.Advances := by
  intro c b c' h
  obtain ⟨ha, ho⟩ := u8_eq_ok h
  exact ⟨[b], ha, ho⟩

theorem advances_bytes (n : Nat) : (bytes n).Advances := by
  intro c bs c' h
  simp only [bytes, List.splitAt_eq] at h
  split at h
  · rename_i hlen
    cases h
    exact ⟨c.ahead.take n, (List.take_append_drop n _).symm, by rw [hlen]⟩
  · cases h

end Reader

/-! ## Numbers -/

theorem UInt16.toUInt16_toUInt8_of_le {x : UInt16} (h : x ≤ 255) : x.toUInt8.toUInt16 = x := by
  have hx : x.toNat ≤ 255 := UInt16.le_iff_toNat_le.1 h
  rw [← UInt16.toNat_inj, UInt8.toNat_toUInt16, UInt16.toNat_toUInt8]
  omega

namespace Bytes

theorem length_number (width n : Nat) : (number width n).length = width := by
  induction width generalizing n with
  | zero => rfl
  | succ width ih => simp [number, ih]

/-- The most significant byte of a number stands in front of the others. -/
theorem number_succ (width n : Nat) :
    number (width + 1) n = UInt8.ofNat (n / 256 ^ width) :: number width n := by
  induction width generalizing n with
  | zero => simp [number]
  | succ width ih =>
    rw [number, ih, number, Nat.div_div_eq_div_mul, ← Nat.pow_succ']
    rfl

theorem length_u16 (x : UInt16) : (u16 x).length = 2 := length_number 2 _

theorem length_i16 (x : Int16) : (i16 x).length = 2 := length_number 2 _

theorem length_i32 (x : Int32) : (i32 x).length = 4 := length_number 4 _

end Bytes

namespace Reader

variable {r : Reader α} {o : Nat} {bs : Bytes} {x : α}

theorem finds_numberFrom (high width n : Nat) :
    (numberFrom high width).Finds o (Bytes.number width n)
      (high * 256 ^ width + n % 256 ^ width) := by
  induction width generalizing high o with
  | zero =>
    have hvalue : high * 256 ^ 0 + n % 256 ^ 0 = high := by omega
    rw [hvalue]
    exact finds_pure high
  | succ width ih =>
    have hbyte : (UInt8.ofNat (n / 256 ^ width)).toNat = n / 256 ^ width % 256 :=
      UInt8.toNat_ofNat'
    have hvalue : high * 256 ^ (width + 1) + n % 256 ^ (width + 1) =
        (high * 256 + n / 256 ^ width % 256) * 256 ^ width + n % 256 ^ width := by
      rw [Nat.pow_succ, Nat.mod_mul]
      ring
    rw [Bytes.number_succ, hvalue, ← hbyte]
    exact (finds_u8 _).bind (ih _)

/-- **A number is found again**, as far as its bytes hold it. -/
theorem finds_number (width n : Nat) :
    (number width).Finds o (Bytes.number width n) (n % 256 ^ width) := by
  have h := finds_numberFrom (o := o) 0 width n
  rwa [Nat.zero_mul, Nat.zero_add] at h

theorem finds_u16 (x : UInt16) : u16.Finds o (Bytes.u16 x) x := by
  have h := (finds_number (o := o) 2 x.toNat).map UInt16.ofNat
  have hx := x.toNat_lt
  rwa [Nat.mod_eq_of_lt (by omega), UInt16.ofNat_toNat] at h

theorem finds_u32 (x : UInt32) : u32.Finds o (Bytes.u32 x) x := by
  have h := (finds_number (o := o) 4 x.toNat).map UInt32.ofNat
  have hx := x.toNat_lt
  rwa [Nat.mod_eq_of_lt (by omega), UInt32.ofNat_toNat] at h

theorem finds_u64 (x : UInt64) : u64.Finds o (Bytes.u64 x) x := by
  have h := (finds_number (o := o) 8 x.toNat).map UInt64.ofNat
  have hx := x.toNat_lt
  rwa [Nat.mod_eq_of_lt (by omega), UInt64.ofNat_toNat] at h

theorem finds_i8 (x : Int8) : i8.Finds o (Bytes.i8 x) x := by
  have h := (finds_u8 (o := o) x.toUInt8).map UInt8.toInt8
  rwa [Int8.toInt8_toUInt8] at h

theorem finds_i16 (x : Int16) : i16.Finds o (Bytes.i16 x) x := by
  have h := (finds_u16 (o := o) x.toUInt16).map UInt16.toInt16
  rwa [Int16.toInt16_toUInt16] at h

theorem finds_i32 (x : Int32) : i32.Finds o (Bytes.i32 x) x := by
  have h := (finds_u32 (o := o) x.toUInt32).map UInt32.toInt32
  rwa [Int32.toInt32_toUInt32] at h

theorem finds_i64 (x : Int64) : i64.Finds o (Bytes.i64 x) x := by
  have h := (finds_u64 (o := o) x.toUInt64).map UInt64.toInt64
  rwa [Int64.toInt64_toUInt64] at h

theorem advances_numberFrom (high width : Nat) : (numberFrom high width).Advances := by
  induction width generalizing high with
  | zero => exact advances_pure high
  | succ width ih => exact advances_u8.bind fun b => ih _

theorem advances_u16 : u16.Advances := (advances_numberFrom 0 2).map _

theorem advances_u32 : u32.Advances := (advances_numberFrom 0 4).map _

theorem advances_i8 : i8.Advances := advances_u8.map _

theorem advances_i16 : i16.Advances := advances_u16.map _

theorem advances_i32 : i32.Advances := advances_u32.map _

/-! ## Lists -/

theorem timesOnto_succ (n : Nat) (done : List α) :
    timesOnto r (n + 1) done = r >>= fun x => timesOnto r n (x :: done) := by
  funext c
  simp only [bind_apply, timesOnto]
  rcases r c with fault | ⟨x, c'⟩ <;> rfl

theorem finds_timesOnto {write : α → Bytes} {xs : List α} (done : List α)
    (h : ∀ x ∈ xs, ∀ o, r.Finds o (write x) x) :
    (timesOnto r xs.length done).Finds o (xs.flatMap write) (done.reverse ++ xs) := by
  induction xs generalizing o done with
  | nil => intro rest; simp [timesOnto]
  | cons x xs ih =>
    have hxs := ih (o := o + (write x).length) (x :: done) (fun y hy => h y (by simp [hy]))
    rw [List.reverse_cons, List.append_assoc] at hxs
    rw [List.length_cons, timesOnto_succ, List.flatMap_cons]
    exact (h x (by simp) o).bind hxs

/-- **The values of some reads in a row** are found if each of them is. -/
theorem finds_times {write : α → Bytes} {xs : List α}
    (h : ∀ x ∈ xs, ∀ o, r.Finds o (write x) x) :
    (times xs.length r).Finds o (xs.flatMap write) xs :=
  finds_timesOnto [] h

/-- **A list behind its length** is found again if 16 bits can hold the length. -/
theorem finds_counted {write : α → Bytes} {xs : List α} (hlen : xs.length ≤ 65535)
    (h : ∀ x ∈ xs, ∀ o, r.Finds o (write x) x) :
    (counted r).Finds o (Bytes.counted write xs) xs := by
  refine (finds_u16 _).bind ?_
  rw [UInt16.toNat_ofNat_of_lt' (by unfold UInt16.size; omega)]
  exact finds_times h

theorem ensures_timesOnto {P : α → Prop} (h : r.Ensures P) (n : Nat) (done : List α) :
    (timesOnto r n done).Ensures fun xs =>
      ∃ more, xs = done.reverse ++ more ∧ more.length = n ∧ ∀ x ∈ more, P x := by
  induction n generalizing done with
  | zero =>
    rintro c _ _ ⟨⟩
    exact ⟨[], by simp⟩
  | succ n ih =>
    rw [timesOnto_succ]
    refine h.bind_of fun x hx => ?_
    intro c xs c' hxs
    obtain ⟨more, rfl, hlen, hmore⟩ := ih (x :: done) c xs c' hxs
    refine ⟨x :: more, by simp, by simp [hlen], ?_⟩
    rw [List.forall_mem_cons]
    exact ⟨hx, hmore⟩

theorem ensures_times {P : α → Prop} (h : r.Ensures P) (n : Nat) :
    (times n r).Ensures fun xs => xs.length = n ∧ ∀ x ∈ xs, P x := by
  intro c xs c' hxs
  obtain ⟨more, rfl, hlen, hmore⟩ := ensures_timesOnto h n [] c xs c' hxs
  exact ⟨hlen, hmore⟩

/-- A list that was read behind its length is not too long to be written so. -/
theorem ensures_counted {P : α → Prop} (h : r.Ensures P) :
    (counted r).Ensures fun xs => xs.length ≤ 65535 ∧ ∀ x ∈ xs, P x := by
  refine Ensures.bind fun n => ?_
  intro c xs c' hxs
  obtain ⟨hlen, hall⟩ := ensures_times h _ c xs c' hxs
  have hn := n.toNat_lt
  exact ⟨by omega, hall⟩

theorem advances_timesOnto (h : r.Advances) (n : Nat) (done : List α) :
    (timesOnto r n done).Advances := by
  induction n generalizing done with
  | zero => exact advances_pure _
  | succ n ih =>
    rw [timesOnto_succ]
    exact h.bind fun x => ih _

theorem advances_times (h : r.Advances) (n : Nat) : (times n r).Advances :=
  advances_timesOnto h n []

/-! ## Whole structures -/

/-- What is found in some bytes is found in nothing but them. -/
theorem Finds.whole {what : String} (h : r.Finds 0 bs x) : whole what r bs = .ok x := by
  have hbs := h []
  rw [List.append_nil] at hbs
  simp [Reader.whole, Cursor.start, hbs]

theorem whole_eq_ok {what : String} (h : whole what r bs = .ok x) :
    ∃ c, r (.start bs) = .ok (x, c) := by
  unfold Reader.whole at h
  split at h
  · cases h
  · rename_i x' c hr
    split at h
    · cases h; exact ⟨c, hr⟩
    · cases h

/-- What is ensured of a reader is true of what it finds in the whole of some bytes. -/
theorem Ensures.of_whole {P : α → Prop} {what : String} (hr : r.Ensures P)
    (h : whole what r bs = .ok x) : P x := by
  obtain ⟨c, hc⟩ := whole_eq_ok h
  exact hr _ x c hc

end Reader

/-- A part of a list takes no more bytes than the list. -/
theorem Bytes.length_le_counted (write : α → Bytes) {xs : List α} {x : α} (h : x ∈ xs) :
    (write x).length ≤ (counted write xs).length := by
  obtain ⟨before, after, rfl⟩ := List.append_of_mem h
  simp only [counted, List.flatMap_append, List.flatMap_cons, List.length_append]
  omega

end FreshLocal
