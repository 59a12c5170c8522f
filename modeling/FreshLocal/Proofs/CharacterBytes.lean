import FreshLocal.Proofs.ClassBytes

/-!
# The bytes of a character

A text is stored in the units of its characters, yet it can be written character by
character: in one byte, or two, or three, and in two times three if the character is
supplementary.

**Argument.** The bits of a byte are those of a quotient, and a mark above them is
added to them (`bits_or_mark`). The upper bits of a supplementary character run from
`0x10` to `0x01`, and lessened by one they are the four bits of the first surrogate
(`planeBits`). No byte of a unit is zero, as the unit `0` takes two bytes, and a unit
has 16 bits, so that no byte is above `0xEF`. Units can be read from more bytes than
they need, never from fewer, and a text whose length was read as 16 bits can
therefore be written with its length in 16 bits.

* `ModifiedUtf8.encode_eq_flatMap`: **the bytes of a text** are those of its characters.
* `ModifiedUtf8.legal_of_mem_encode`: the bytes that occur.
* `ModifiedUtf8.write_utf8_of_read`: **a text of a class** is written behind its length.
* `ModifiedUtf8.lossless`: what holds of texts and bytes, both ways.
-/

namespace FreshLocal.ModifiedUtf8

/-- The bytes of a character, by the bits of its number. -/
def charBytes (c : Char) : Bytes :=
  if c.val ≠ 0 ∧ c.val < 0x80 then [c.val.toUInt8]
  else if c.val < 0x800 then
    [(c.val >>> 6 &&& 0x1F).toUInt8 ||| 0xC0, (c.val &&& 0x3F).toUInt8 ||| 0x80]
  else if c.val < 0x10000 then
    [(c.val >>> 12 &&& 0x0F).toUInt8 ||| 0xE0, (c.val >>> 6 &&& 0x3F).toUInt8 ||| 0x80,
      (c.val &&& 0x3F).toUInt8 ||| 0x80]
  else
    [0xED, ((c.val >>> 16 &&& 0x0F).toUInt8 - 1) &&& 0x0F ||| 0xA0,
      (c.val >>> 10 &&& 0x3F).toUInt8 ||| 0x80,
      0xED, (c.val >>> 6 &&& 0x0F).toUInt8 ||| 0xB0, (c.val &&& 0x3F).toUInt8 ||| 0x80]

/-- Some bits of a number, by division. -/
theorem toNat_bits (x low mask : UInt32) (width : Nat) (hlow : low.toNat < 32)
    (hmask : mask.toNat = 2 ^ width - 1) (hwidth : width ≤ 8) :
    (x >>> low &&& mask).toUInt8.toNat = x.toNat / 2 ^ low.toNat % 2 ^ width := by
  have hsmall : x.toNat / 2 ^ low.toNat % 2 ^ width < 2 ^ 8 :=
    lt_of_lt_of_le (Nat.mod_lt _ (by positivity)) (Nat.pow_le_pow_right (by decide) hwidth)
  rw [UInt32.toNat_toUInt8, UInt32.toNat_and, UInt32.toNat_shiftRight, Nat.mod_eq_of_lt hlow, hmask,
    Nat.and_two_pow_sub_one_eq_mod, Nat.shiftRight_eq_div_pow, Nat.mod_eq_of_lt hsmall]

/-- A mark above some bits is added to them. -/
theorem or_mark {x mark : UInt8} (width high : Nat) (hx : x.toNat < 2 ^ width)
    (hmark : mark.toNat = 2 ^ width * high) : x ||| mark = UInt8.ofNat (mark.toNat + x.toNat) := by
  have hsum : (x ||| mark).toNat = mark.toNat + x.toNat := by
    rw [UInt8.toNat_or, Nat.or_comm, hmark, Nat.two_pow_add_eq_or_of_lt hx]
  rw [← hsum, UInt8.ofNat_toNat]

/-- A byte of some bits and a mark. -/
theorem bits_or_mark (x low mask : UInt32) (mark : UInt8) (width high : Nat) (hlow : low.toNat < 32)
    (hmask : mask.toNat = 2 ^ width - 1) (hwidth : width ≤ 8)
    (hmark : mark.toNat = 2 ^ width * high) :
    (x >>> low &&& mask).toUInt8 ||| mark =
      UInt8.ofNat (mark.toNat + x.toNat / 2 ^ low.toNat % 2 ^ width) := by
  have hbits := toNat_bits x low mask width hlow hmask hwidth
  rw [or_mark width high (hbits ▸ Nat.mod_lt _ (by positivity)) hmark, hbits]

/-- The five upper bits of a supplementary character, less one, are four bits. -/
theorem planeBits (c : Char) (h : 0x10000 ≤ c.toNat) :
    ((c.val >>> 16 &&& 0x0F).toUInt8 - 1) &&& 0x0F ||| 0xA0 =
      UInt8.ofNat (0xA0 + (c.toNat / 0x10000 - 1)) := by
  have hvalid : c.toNat < 0xD800 ∨ (0xDFFF < c.toNat ∧ c.toNat < 0x110000) := c.valid
  have hplane : (c.val >>> 16 &&& 0x0F).toUInt8.toNat = c.toNat / 0x10000 % 0x10 :=
    toNat_bits c.val 16 0x0F 4 (by decide) rfl (by decide)
  have hless : (((c.val >>> 16 &&& 0x0F).toUInt8 - 1) &&& 0x0F).toNat = c.toNat / 0x10000 - 1 := by
    have hmask : (0x0F : UInt8).toNat = 2 ^ 4 - 1 := rfl
    have hdecr : (1 : UInt8).toNat = 1 := rfl
    rw [UInt8.toNat_and, hmask, Nat.and_two_pow_sub_one_eq_mod, UInt8.toNat_sub, hplane, hdecr]
    omega
  rw [or_mark 4 10 (by omega) rfl, hless]
  rfl

/-- **The units of a character** are written in the bytes of the character. -/
theorem flatMap_unitBytes_utf16 (c : Char) : (utf16 c).flatMap unitBytes = charBytes c := by
  have hvalid : c.toNat < 0xD800 ∨ (0xDFFF < c.toNat ∧ c.toNat < 0x110000) := c.valid
  have hone : c.val ≠ 0 ∧ c.val < 0x80 ↔ 0 < c.toNat ∧ c.toNat < 0x80 := by
    rw [ne_eq, ← UInt32.toNat_inj, UInt32.lt_iff_toNat_lt]
    exact and_congr_left fun _ => Nat.pos_iff_ne_zero.symm
  have htwo : c.val < 0x800 ↔ c.toNat < 0x800 := UInt32.lt_iff_toNat_lt
  have hthree : c.val < 0x10000 ↔ c.toNat < 0x10000 := UInt32.lt_iff_toNat_lt
  have hlowest : (c.val &&& 0x3F).toUInt8 ||| 0x80 = UInt8.ofNat (0x80 + c.toNat % 0x40) := by
    simpa using bits_or_mark c.val 0 0x3F 0x80 6 2 (by decide) rfl (by decide) rfl
  have hsix : (c.val >>> 6 &&& 0x3F).toUInt8 ||| 0x80 =
      UInt8.ofNat (0x80 + c.toNat / 0x40 % 0x40) :=
    bits_or_mark c.val 6 0x3F 0x80 6 2 (by decide) rfl (by decide) rfl
  have hten : (c.val >>> 10 &&& 0x3F).toUInt8 ||| 0x80 =
      UInt8.ofNat (0x80 + c.toNat / 0x400 % 0x40) :=
    bits_or_mark c.val 10 0x3F 0x80 6 2 (by decide) rfl (by decide) rfl
  have hfour : (c.val >>> 6 &&& 0x0F).toUInt8 ||| 0xB0 =
      UInt8.ofNat (0xB0 + c.toNat / 0x40 % 0x10) :=
    bits_or_mark c.val 6 0x0F 0xB0 4 11 (by decide) rfl (by decide) rfl
  have hpair : (c.val >>> 6 &&& 0x1F).toUInt8 ||| 0xC0 =
      UInt8.ofNat (0xC0 + c.toNat / 0x40 % 0x20) :=
    bits_or_mark c.val 6 0x1F 0xC0 5 6 (by decide) rfl (by decide) rfl
  have htriple : (c.val >>> 12 &&& 0x0F).toUInt8 ||| 0xE0 =
      UInt8.ofNat (0xE0 + c.toNat / 0x1000 % 0x10) :=
    bits_or_mark c.val 12 0x0F 0xE0 4 14 (by decide) rfl (by decide) rfl
  unfold charBytes
  simp only [hone, htwo, hthree, hlowest, hsix, hten, hfour, hpair, htriple]
  by_cases hbasic : c.toNat < 0x10000
  · rw [utf16, if_pos hbasic, if_pos hbasic, List.flatMap_singleton, unitBytes]
    split_ifs with h1 h2
    · rfl
    · rw [Nat.mod_eq_of_lt (show c.toNat / 0x40 < 0x20 by omega)]
    · rw [Nat.mod_eq_of_lt (show c.toNat / 0x1000 < 0x10 by omega)]
  · -- Each surrogate starts with 0xED; its other bits are those of the character, moved.
    have hlast : (0xDC00 + (c.toNat - 0x10000) % 0x400) % 0x40 = c.toNat % 0x40 := by omega
    have hmiddle : 0x80 + (0xDC00 + (c.toNat - 0x10000) % 0x400) / 0x40 % 0x40 =
        0xB0 + c.toNat / 0x40 % 0x10 := by omega
    have hlow : (0xDC00 + (c.toNat - 0x10000) % 0x400) / 0x1000 = 0xD := by omega
    have hfirst : (0xD800 + (c.toNat - 0x10000) / 0x400) % 0x40 = c.toNat / 0x400 % 0x40 := by
      omega
    have hplane : 0x80 + (0xD800 + (c.toNat - 0x10000) / 0x400) / 0x40 % 0x40 =
        0xA0 + (c.toNat / 0x10000 - 1) := by omega
    have hhigh : (0xD800 + (c.toNat - 0x10000) / 0x400) / 0x1000 = 0xD := by omega
    have hunit (u : Nat) (hu : 0x800 ≤ u) : unitBytes u = [UInt8.ofNat (0xE0 + u / 0x1000),
        UInt8.ofNat (0x80 + u / 0x40 % 0x40), UInt8.ofNat (0x80 + u % 0x40)] := by
      rw [unitBytes, if_neg (by omega), if_neg (by omega)]
    rw [utf16, if_neg hbasic, if_neg hbasic, if_neg (by omega), if_neg (by omega),
      List.flatMap_cons, List.flatMap_singleton, hunit _ (by omega), hunit _ (by omega),
      hhigh, hplane, hfirst, hlow, hmiddle, hlast, planeBits c (by omega)]
    rfl

/-- **The bytes of a text** are those of its characters, one after the other. -/
theorem encode_eq_flatMap (text : String) : encode text = text.toList.flatMap charBytes := by
  simp only [encode, List.flatMap_assoc, flatMap_unitBytes_utf16]

/-- **The bytes of a unit** are no zero bytes, and none of them leads a sequence of four. -/
theorem legal_of_mem_unitBytes {u : Nat} (hu : u < 0x10000) {b : UInt8} (h : b ∈ unitBytes u) :
    b ≠ 0 ∧ b < 0xF0 := by
  have hlegal (n : Nat) (hpos : 0 < n) (hlt : n < 0xF0) :
      UInt8.ofNat n ≠ 0 ∧ UInt8.ofNat n < 0xF0 := by
    have hn : (UInt8.ofNat n).toNat = n := by rw [UInt8.toNat_ofNat']; omega
    rw [ne_eq, ← UInt8.toNat_inj, UInt8.lt_iff_toNat_lt, hn]
    exact ⟨hpos.ne', hlt⟩
  unfold unitBytes at h
  split_ifs at h with h1 h2
  · rw [List.mem_singleton] at h
    exact h ▸ hlegal u h1.1 (by omega)
  · simp only [List.mem_cons, List.not_mem_nil, or_false] at h
    obtain rfl | rfl := h
    · exact hlegal _ (by omega) (by omega)
    · exact hlegal _ (by omega) (by omega)
  · simp only [List.mem_cons, List.not_mem_nil, or_false] at h
    obtain rfl | rfl | rfl := h
    · exact hlegal _ (by omega) (by omega)
    · exact hlegal _ (by omega) (by omega)
    · exact hlegal _ (by omega) (by omega)

theorem legal_of_mem_encode {text : String} {b : UInt8} (h : b ∈ encode text) :
    b ≠ 0 ∧ b < 0xF0 := by
  obtain ⟨u, hu, hb⟩ := List.mem_flatMap.1 h
  obtain ⟨c, -, hc⟩ := List.mem_flatMap.1 hu
  exact legal_of_mem_unitBytes (utf16_lt c u hc) hb

/-- **A text of a class that was read** is written behind its own length. -/
theorem write_utf8_of_read {bytes : Bytes} {file : ClassFile}
    (hfile : ClassFile.read bytes = .ok file) {i : PoolIndex} {text : String}
    (htext : file.pool.utf8 i = .ok text) :
    ∃ length : UInt16, length.toNat = (encode text).length ∧
      (Constant.utf8 text).write = .u8 1 ++ .u16 length ++ encode text := by
  have hshort : (encode text).length ≤ 65535 :=
    (ClassFile.stored_of_read hfile).pool.shortText htext
  refine ⟨UInt16.ofNat (encode text).length, ?_, rfl⟩
  rw [UInt16.toNat_ofNat']
  omega

/-- **No text is lost, and none outgrows its bytes.** A text is read back from its bytes, which are
those of its characters and legal; a text that was read takes no more bytes than it was read from,
so that its length can be written. -/
theorem lossless :
    (∀ text : String, decode (encode text) = .ok text ∧
      encode text = text.toList.flatMap charBytes ∧ ∀ b ∈ encode text, b ≠ 0 ∧ b < 0xF0) ∧
    (∀ (bytes : Bytes) (text : String), decode bytes = .ok text →
      (encode text).length ≤ bytes.length) ∧
    ∀ (bytes : Bytes) (file : ClassFile), ClassFile.read bytes = .ok file →
      ∀ (i : PoolIndex) (text : String), file.pool.utf8 i = .ok text →
        ∃ length : UInt16, length.toNat = (encode text).length ∧
          (Constant.utf8 text).write = .u8 1 ++ .u16 length ++ encode text :=
  ⟨fun text => ⟨decode_encode text, encode_eq_flatMap text, fun _ => legal_of_mem_encode⟩,
    fun _ _ => length_encode_le, fun _ _ hfile _ _ => write_utf8_of_read hfile⟩

/-- A zero character, a supplementary one, and a letter in more bytes than it needs. -/
def sprawlingText : Bytes := [0xC0, 0x80, 0xED, 0xA0, 0xBD, 0xED, 0xB8, 0x80, 0xC1, 0x81]

/-- A class with this text as its name. -/
def sprawlingName : Bytes :=
  [0xCA, 0xFE, 0xBA, 0xBE, 0, 0, 0, 52, 0, 3, 1, 0, 10] ++ sprawlingText ++
    [7, 0, 1, 0, 0x21, 0, 2, 0, 0, 0, 0, 0, 0, 0, 0, 0, 0]

/-- The class itself. -/
def sprawlinglyNamed : ClassFile where
  version := .java8
  pool := ⟨#[none, some (.utf8 "\x00😀A"), some (.classRef 1)]⟩
  flags := .ofBits 0x0021
  thisClass := 2
  superClass := 0
  interfaces := []
  fields := #[]
  methods := #[]
  attributes := #[]

/-- The letter is written in one byte, and the length of the text is 9 and not 10. -/
theorem lossless_sprawling :
    decode sprawlingText = .ok "\x00😀A" ∧ ClassFile.read sprawlingName = .ok sprawlinglyNamed ∧
      (encode "\x00😀A").length ≤ 10 ∧
      ∃ length : UInt16, length.toNat = (encode "\x00😀A").length ∧
        (Constant.utf8 "\x00😀A").write = .u8 1 ++ .u16 length ++ encode "\x00😀A" := by
  have htext : decode sprawlingText = .ok "\x00😀A" := by decide +kernel
  have hfile : ClassFile.read sprawlingName = .ok sprawlinglyNamed := by decide +kernel
  exact ⟨htext, hfile, lossless.2.1 _ _ htext,
    lossless.2.2 _ _ hfile 1 _ (by decide +kernel)⟩

end FreshLocal.ModifiedUtf8
