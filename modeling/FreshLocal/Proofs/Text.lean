import FreshLocal.ModifiedUtf8
import Mathlib.Tactic

/-!
# Texts as bytes and back

Each unit of a text is written in a form that reading takes for that unit and no
other. Reading also accepts longer forms, so the bytes of a text that was read
may differ from those it was read from, but there are not more of them.

* `ModifiedUtf8.decode_encode`: **a text is read back from its bytes**.
* `ModifiedUtf8.length_encode_le`: a text that was read fits where it stood.
-/

namespace FreshLocal.ModifiedUtf8

/-- The bytes of a unit, by the size of the unit. -/
theorem length_unitBytes (u : Nat) :
    (unitBytes u).length ≤ 3 ∧ (u < 0x800 → (unitBytes u).length ≤ 2) ∧
      (0 < u → u < 0x80 → (unitBytes u).length = 1) := by
  unfold unitBytes
  split
  · simp
  · split
    · rename_i h _
      refine ⟨by simp, by simp, fun h1 h2 => absurd ⟨h1, h2⟩ h⟩
    · rename_i h h'
      refine ⟨by simp, fun h2 => absurd h2 h', fun h1 h2 => absurd ⟨h1, h2⟩ h⟩

/-- A character has one unit or two, so it takes at most six bytes. -/
theorem length_encode_le_chars (text : String) : (encode text).length ≤ 6 * text.toList.length := by
  unfold encode
  induction text.toList with
  | nil => simp
  | cons c rest ih =>
    have hchar : ((utf16 c).flatMap unitBytes).length ≤ 6 := by
      unfold utf16
      split
      · have hunit := (length_unitBytes c.toNat).1
        simp only [List.flatMap_cons, List.flatMap_nil, List.append_nil]
        omega
      · have hhigh := (length_unitBytes (0xD800 + (c.toNat - 0x10000) / 0x400)).1
        have hlow := (length_unitBytes (0xDC00 + (c.toNat - 0x10000) % 0x400)).1
        simp only [List.flatMap_cons, List.flatMap_nil, List.append_nil, List.length_append]
        omega
    rw [List.flatMap_cons, List.flatMap_append, List.length_append, List.length_cons]
    omega

/-- A byte with six bits of a unit continues it. -/
theorem continuation_lowBits (n : Nat) :
    isContinuation (UInt8.ofNat (0x80 + n % 0x40)) = true ∧
      lowBits (UInt8.ofNat (0x80 + n % 0x40)) = n % 0x40 := by
  have hn : n % 0x40 < 0x40 := Nat.mod_lt _ (by decide)
  constructor
  · simp only [isContinuation, Bool.and_eq_true, decide_eq_true_eq, UInt8.le_iff_toNat_le,
      UInt8.lt_iff_toNat_lt, UInt8.toNat_ofNat']
    simp only [UInt8.reduceToNat]
    omega
  · simp only [lowBits, UInt8.toNat_ofNat']
    omega

/-- **The bytes of a unit** are taken for that unit. -/
theorem unitsOnto_unitBytes {u : Nat} (hu : u < 0x10000) (rest : Bytes) (done : List Nat) :
    unitsOnto (unitBytes u ++ rest) done = unitsOnto rest (u :: done) := by
  unfold unitBytes
  split
  · rename_i h
    have hb : (UInt8.ofNat u).toNat = u := by rw [UInt8.toNat_ofNat']; omega
    have hlead : (0 : UInt8) < UInt8.ofNat u ∧ UInt8.ofNat u < 0x80 := by
      simp only [UInt8.lt_iff_toNat_lt, hb, UInt8.reduceToNat]
      exact h
    rw [List.singleton_append, unitsOnto.eq_def]
    dsimp only
    rw [if_pos hlead, hb]
  · split
    · rename_i h
      have hb : (UInt8.ofNat (0xC0 + u / 0x40)).toNat = 0xC0 + u / 0x40 := by
        rw [UInt8.toNat_ofNat']; omega
      have hsmall : ¬ ((0 : UInt8) < UInt8.ofNat (0xC0 + u / 0x40) ∧
          UInt8.ofNat (0xC0 + u / 0x40) < 0x80) := by
        simp only [UInt8.lt_iff_toNat_lt, hb, UInt8.reduceToNat]; omega
      have hlead : (0xC0 : UInt8) ≤ UInt8.ofNat (0xC0 + u / 0x40) ∧
          UInt8.ofNat (0xC0 + u / 0x40) < 0xE0 := by
        simp only [UInt8.le_iff_toNat_le, UInt8.lt_iff_toNat_lt, hb, UInt8.reduceToNat]; omega
      obtain ⟨hc, hlow⟩ := continuation_lowBits u
      have hvalue : (0xC0 + u / 0x40) % 0x20 * 0x40 + u % 0x40 = u := by omega
      rw [List.cons_append, List.singleton_append, unitsOnto, if_neg hsmall, if_pos hlead,
        if_pos hc, hb, hlow, hvalue]
    · have hb : (UInt8.ofNat (0xE0 + u / 0x1000)).toNat = 0xE0 + u / 0x1000 := by
        rw [UInt8.toNat_ofNat']; omega
      have hsmall : ¬ ((0 : UInt8) < UInt8.ofNat (0xE0 + u / 0x1000) ∧
          UInt8.ofNat (0xE0 + u / 0x1000) < 0x80) := by
        simp only [UInt8.lt_iff_toNat_lt, hb, UInt8.reduceToNat]; omega
      have hmiddle : ¬ ((0xC0 : UInt8) ≤ UInt8.ofNat (0xE0 + u / 0x1000) ∧
          UInt8.ofNat (0xE0 + u / 0x1000) < 0xE0) := by
        simp only [UInt8.le_iff_toNat_le, UInt8.lt_iff_toNat_lt, hb, UInt8.reduceToNat]; omega
      have hlead : (0xE0 : UInt8) ≤ UInt8.ofNat (0xE0 + u / 0x1000) ∧
          UInt8.ofNat (0xE0 + u / 0x1000) < 0xF0 := by
        simp only [UInt8.le_iff_toNat_le, UInt8.lt_iff_toNat_lt, hb, UInt8.reduceToNat]; omega
      obtain ⟨hc, hlow⟩ := continuation_lowBits (u / 0x40)
      obtain ⟨hd, hlow'⟩ := continuation_lowBits u
      have hvalue :
        (0xE0 + u / 0x1000) % 0x10 * 0x1000 + u / 0x40 % 0x40 * 0x40 + u % 0x40 = u := by
        omega
      rw [List.cons_append, List.cons_append, List.singleton_append, unitsOnto, if_neg hsmall,
        if_neg hmiddle, if_pos hlead]
      dsimp only
      rw [hc, hd, Bool.and_self, if_pos rfl, hb, hlow, hlow', hvalue]

theorem unitsOnto_flatMap {us : List Nat} (h : ∀ u ∈ us, u < 0x10000) (done : List Nat) :
    unitsOnto (us.flatMap unitBytes) done = some (done.reverse ++ us) := by
  induction us generalizing done with
  | nil => simp [unitsOnto]
  | cons u us ih =>
    rw [List.flatMap_cons, unitsOnto_unitBytes (h u (by simp)), ih (fun v hv => h v (by simp [hv]))]
    simp

/-- **The units of a character** are those of no other. -/
theorem ofUtf16Onto_utf16 (c : Char) (rest : List Nat) (done : List Char) :
    ofUtf16Onto (utf16 c ++ rest) done = ofUtf16Onto rest (c :: done) := by
  have hvalid : c.toNat < 0xD800 ∨ (0xDFFF < c.toNat ∧ c.toNat < 0x110000) := c.valid
  unfold utf16
  split
  · have hhigh : ¬ isHighSurrogate c.toNat = true := by simp [isHighSurrogate]; omega
    have hlow : ¬ isLowSurrogate c.toNat = true := by simp [isLowSurrogate]; omega
    rw [List.singleton_append, ofUtf16Onto.eq_def]
    dsimp only
    rw [if_neg hhigh, if_neg hlow, Char.ofNat_toNat]
  · have hhigh : isHighSurrogate (0xD800 + (c.toNat - 0x10000) / 0x400) = true := by
      simp [isHighSurrogate]; omega
    have hlow : isLowSurrogate (0xDC00 + (c.toNat - 0x10000) % 0x400) = true := by
      simp [isLowSurrogate]; omega
    have hvalue : 0x10000 + (0xD800 + (c.toNat - 0x10000) / 0x400 - 0xD800) * 0x400 +
        (0xDC00 + (c.toNat - 0x10000) % 0x400 - 0xDC00) = c.toNat := by omega
    rw [List.cons_append, List.singleton_append, ofUtf16Onto, if_pos hhigh, if_pos hlow, hvalue,
      Char.ofNat_toNat]

theorem ofUtf16Onto_flatMap (cs : List Char) (done : List Char) :
    ofUtf16Onto (cs.flatMap utf16) done = some (done.reverse ++ cs) := by
  induction cs generalizing done with
  | nil => simp [ofUtf16Onto]
  | cons c cs ih => rw [List.flatMap_cons, ofUtf16Onto_utf16, ih]; simp

theorem toNat_ofNat {n : Nat} (h : n.isValidChar) : (Char.ofNat n).toNat = n := by
  rw [Char.ofNat, dif_pos h]
  rfl

theorem utf16_lt (c : Char) : ∀ u ∈ utf16 c, u < 0x10000 := by
  have hvalid : c.toNat < 0xD800 ∨ (0xDFFF < c.toNat ∧ c.toNat < 0x110000) := c.valid
  intro u hu
  unfold utf16 at hu
  split at hu
  · rw [List.mem_singleton] at hu; omega
  · rw [List.mem_cons, List.mem_singleton] at hu; omega

/-- **A text is read back from its bytes.** -/
theorem decode_encode (text : String) : decode (encode text) = .ok text := by
  have hunits : ∀ u ∈ text.toList.flatMap utf16, u < 0x10000 := by
    intro u hu
    obtain ⟨c, -, hc⟩ := List.mem_flatMap.1 hu
    exact utf16_lt c u hc
  simp [decode, encode, units, ofUtf16?, unitsOnto_flatMap hunits, ofUtf16Onto_flatMap,
    String.ofList_toList]

/-- Units that were read take no more bytes than they were read from. -/
theorem unitsOnto_eq_some {bytes : Bytes} {done us : List Nat}
    (h : unitsOnto bytes done = some us) :
    ∃ more, us = done.reverse ++ more ∧ (∀ u ∈ more, u < 0x10000) ∧
      (more.flatMap unitBytes).length ≤ bytes.length := by
  fun_induction unitsOnto bytes done with
  | case1 done => cases h; exact ⟨[], by simp⟩
  | case2 b rest done hb ih =>
    obtain ⟨more, rfl, hmore, hlen⟩ := ih h
    have hone := (length_unitBytes b.toNat).2.2 (UInt8.lt_iff_toNat_lt.1 hb.1)
      (UInt8.lt_iff_toNat_lt.1 hb.2)
    have hb' := b.toNat_lt
    refine ⟨b.toNat :: more, by simp, ?_, ?_⟩
    · rw [List.forall_mem_cons]; exact ⟨by omega, hmore⟩
    · simp only [List.flatMap_cons, List.length_append, List.length_cons]; omega
  | case3 b done hb hb' c rest hc ih =>
    obtain ⟨more, rfl, hmore, hlen⟩ := ih h
    have hu : b.toNat % 0x20 * 0x40 + lowBits c < 0x800 := by unfold lowBits; omega
    have htwo := (length_unitBytes (b.toNat % 0x20 * 0x40 + lowBits c)).2.1 hu
    refine ⟨(b.toNat % 0x20 * 0x40 + lowBits c) :: more, by simp, ?_, ?_⟩
    · rw [List.forall_mem_cons]; exact ⟨by omega, hmore⟩
    · simp only [List.flatMap_cons, List.length_append, List.length_cons]; omega
  | case6 b done hb hb' hb'' c d rest hcd ih =>
    obtain ⟨more, rfl, hmore, hlen⟩ := ih h
    have hu : b.toNat % 0x10 * 0x1000 + lowBits c * 0x40 + lowBits d < 0x10000 := by
      unfold lowBits; omega
    have hthree := (length_unitBytes (b.toNat % 0x10 * 0x1000 + lowBits c * 0x40 + lowBits d)).1
    refine ⟨(b.toNat % 0x10 * 0x1000 + lowBits c * 0x40 + lowBits d) :: more, by simp, ?_, ?_⟩
    · rw [List.forall_mem_cons]; exact ⟨hu, hmore⟩
    · simp only [List.flatMap_cons, List.length_append, List.length_cons]; omega
  | case4 | case5 | case7 | case8 | case9 => cases h

/-- The characters of some units have these units. -/
theorem ofUtf16Onto_eq_some {us : List Nat} {done cs : List Char} (hus : ∀ u ∈ us, u < 0x10000)
    (h : ofUtf16Onto us done = some cs) :
    ∃ more, cs = done.reverse ++ more ∧ more.flatMap utf16 = us := by
  fun_induction ofUtf16Onto us done with
  | case1 done => cases h; exact ⟨[], by simp⟩
  | case2 u done hu v rest hv ih =>
    obtain ⟨more, rfl, rfl⟩ := ih (fun w hw => hus w (by simp [hw])) h
    simp only [isHighSurrogate, isLowSurrogate, Bool.and_eq_true, decide_eq_true_eq] at hu hv
    refine ⟨Char.ofNat (0x10000 + (u - 0xD800) * 0x400 + (v - 0xDC00)) :: more, by simp, ?_⟩
    rw [List.flatMap_cons, utf16, toNat_ofNat (by unfold Nat.isValidChar; omega),
      if_neg (by omega)]
    simp only [List.cons_append, List.nil_append, List.cons.injEq, and_true]
    omega
  | case6 u rest done hu hu' ih =>
    obtain ⟨more, rfl, rfl⟩ := ih (fun w hw => hus w (by simp [hw])) h
    have hlt := hus u (by simp)
    simp only [isHighSurrogate, isLowSurrogate, Bool.and_eq_true, decide_eq_true_eq] at hu hu'
    refine ⟨Char.ofNat u :: more, by simp, ?_⟩
    rw [List.flatMap_cons, utf16, toNat_ofNat (by unfold Nat.isValidChar; omega),
      if_pos hlt, List.singleton_append]
  | case3 | case4 | case5 => cases h

/-- **A text that was read** takes no more bytes than it was read from. -/
theorem length_encode_le {bytes : Bytes} {text : String} (h : decode bytes = .ok text) :
    (encode text).length ≤ bytes.length := by
  unfold decode at h
  split at h
  · rename_i cs hcs
    cases h
    obtain ⟨us, hus, hcs⟩ := Option.bind_eq_some_iff.1 hcs
    obtain ⟨_, rfl, hlt, hlen⟩ := unitsOnto_eq_some hus
    obtain ⟨_, rfl, hunits⟩ := ofUtf16Onto_eq_some hlt hcs
    simpa [encode, hunits] using hlen
  · cases h

end FreshLocal.ModifiedUtf8
