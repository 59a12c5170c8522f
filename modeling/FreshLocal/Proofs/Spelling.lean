import FreshLocal.Proofs.ClassBytes
import FreshLocal.Proofs.PoolRequests
import FreshLocal.Proofs.TakenBytes

/-!
# The spellings of a class

Several files are read as one class. A text may be written in more bytes than it
needs, flags without a meaning are dropped, and the count of a constant pool only
says where to stop: constants are read until the next one would start at or
behind it.

**Argument.** Reading goes over the file once, and each of its steps says which
bytes it took (`Reader.Takes`). All of them are determined by what was read, but
for those that a `Spelling` holds. Writing decides for one spelling: the shortest
texts, no unknown flags, and the count that the constants come to.

* `ConstantPool.Fills`: as many constants as it takes to come to the count.
* `Spelling.Spells`: the spellings in which a class may stand in a file.
* `ClassFile.spelt_of_read`: **every file is a spelling of the class** that is read from it.
* `ClassFile.write_of_read`: how far **what is written is what was read**.
* `ClassFile.read_write_of_read`: **what is written is read again** as the same class.
-/

namespace FreshLocal

/-- **How the constants of a pool come to its count**: as long as the next index is below the count
there is another one. The last one may go past it. -/
inductive ConstantPool.Fills (count : Nat) : (next : Nat) → List Constant → Prop
  | done {next : Nat} : count ≤ next → Fills count next []
  | more {next : Nat} {c : Constant} {behind : List Constant} : next < count →
    Fills count (next + c.width) behind → Fills count next (c :: behind)

namespace Constant

/-- The bytes of a constant, in which the given ones stand for its text. -/
def writeAs (body : Bytes) : Constant → Bytes
  | utf8 _ => .u8 1 ++ .u16 (UInt16.ofNat body.length) ++ body
  | c => c.write

/-- Can the bytes stand for the text of the constant? There are none if it has no text. -/
def SpeltBy (body : Bytes) : Constant → Prop
  | utf8 text => body.length ≤ 65535 ∧ ModifiedUtf8.decode body = .ok text
  | _ => body = []

end Constant

/-- The bytes of a constant pool with a count, and with bytes for the text of each constant. -/
def ConstantPool.writeAs (count : UInt16) (texts : List Bytes) (p : ConstantPool) : Bytes :=
  .u16 count ++
    (List.zipWith (fun constant body => constant.writeAs body) p.inOrder texts).flatten

/-- The bytes of a member, with a word for its flags. -/
def Member.writeAs {known : UInt16} (word : UInt16) (m : Member known) : Bytes :=
  .u16 word ++ .u16 m.name ++ .u16 m.descriptor ++ .counted Attribute.write m.attributes

/-- **What a file says that is not kept** as it stands there. -/
structure Spelling where
  /-- The count of the constant pool. -/
  count : UInt16
  /-- The bytes of the text of each constant. -/
  texts : List Bytes
  flags : UInt16
  fieldFlags : List UInt16
  methodFlags : List UInt16

namespace Spelling

/-- Does reading make the class of what the file says? -/
structure Spells (s : Spelling) (c : ClassFile) : Prop where
  count : ConstantPool.Fills s.count.toNat 1 c.pool.inOrder
  texts : List.Forall₂ (fun constant body => constant.SpeltBy body) c.pool.inOrder s.texts
  flags : Flags.ofBits s.flags = c.flags
  fieldFlags : List.Forall₂ (fun f word => Flags.ofBits word = f.flags) c.fields.toList s.fieldFlags
  methodFlags :
    List.Forall₂ (fun m word => Flags.ofBits word = m.flags) c.methods.toList s.methodFlags

/-- Every text is in the bytes that are written for it, and every flag has a meaning. -/
structure Canonical (s : Spelling) : Prop where
  texts : ∀ body ∈ s.texts, ∀ text, ModifiedUtf8.decode body = .ok text →
    body = ModifiedUtf8.encode text
  flags : s.flags &&& 0xF631 = s.flags
  fieldFlags : ∀ word ∈ s.fieldFlags, word &&& 0x50DF = word
  methodFlags : ∀ word ∈ s.methodFlags, word &&& 0x1DFF = word

end Spelling

namespace ClassFile

/-- What stands behind the constant pool in a spelling. -/
def writeBehindAs (c : ClassFile) (s : Spelling) : Bytes :=
  .u16 s.flags ++ (.u16 c.thisClass ++ (.u16 c.superClass ++ (.counted Bytes.u16 c.interfaces ++
    ((.u16 (UInt16.ofNat c.fields.toList.length) ++
        (List.zipWith (fun f word => f.writeAs word) c.fields.toList s.fieldFlags).flatten) ++
      ((.u16 (UInt16.ofNat c.methods.toList.length) ++
          (List.zipWith (fun m word => m.writeAs word) c.methods.toList s.methodFlags).flatten) ++
        .counted Attribute.write c.attributes.toList)))))

/-- The bytes of a class in a spelling. -/
def writeAs (c : ClassFile) (s : Spelling) : Bytes :=
  (.u32 magic ++ c.version.write) ++ (c.pool.writeAs s.count s.texts ++ c.writeBehindAs s)

end ClassFile

open Reader

/-! ## Lists of spellings -/

section Lists

variable {α β γ : Type} {P : α → β → Prop} {f : α → β → γ} {xs : List α} {ys : List β} {zs : List γ}

/-- The spellings of the values of a list are a list. -/
theorem exists_zipWith_of_forall₂
    (h : List.Forall₂ (fun x z => ∃ y, P x y ∧ z = f x y) xs zs) :
    ∃ ys, List.Forall₂ P xs ys ∧ zs = List.zipWith f xs ys := by
  induction h with
  | nil => exact ⟨[], .nil, rfl⟩
  | cons hxz _ ih =>
    obtain ⟨y, hy, rfl⟩ := hxz
    obtain ⟨ys, hys, rfl⟩ := ih
    exact ⟨y :: ys, .cons hy hys, rfl⟩

/-- A spelling that is the same as none of its own. -/
theorem zipWith_eq_map {g : α → γ} (h : List.Forall₂ P xs ys)
    (hfg : ∀ x y, y ∈ ys → P x y → f x y = g x) : List.zipWith f xs ys = xs.map g := by
  induction h with
  | nil => rfl
  | cons hxy _ ih =>
    have hhead := hfg _ _ (by simp) hxy
    have htail := ih fun x y hy => hfg x y (by simp [hy])
    rw [List.zipWith_cons_cons, hhead, htail, List.map_cons]

end Lists

/-! ## Constants -/

namespace Constant

variable {α β : Type} {c : Constant} {body : Bytes}

theorem takes_readText : readText.Takes fun text taken => ∃ body, (utf8 text).SpeltBy body ∧
    taken = .u16 (UInt16.ofNat body.length) ++ body := by
  refine takes_u16.bind fun length taken htaken => (takes_bytes _).bind fun body more hmore => ?_
  obtain ⟨rfl, hlength⟩ := hmore
  refine takes_lift fun text htext => ?_
  have hlt := length.toNat_lt
  refine ⟨more, ⟨by omega, htext⟩, ?_⟩
  rw [htaken, hlength, UInt16.ofNat_toNat, List.append_nil]

/-- What is true of the bytes of a constant behind its tag. -/
def TakenBehind (tag : UInt8) (c : Constant) (more : Bytes) : Prop :=
  ∃ body, c.SpeltBy body ∧ [tag] ++ more = c.writeAs body

/-- A constant with one part. -/
theorem takes_part {tag : UInt8} {r : Reader α} {write : α → Bytes} {f : α → Constant}
    (hr : r.Takes fun x taken => taken = write x)
    (hf : ∀ x, (f x).SpeltBy [] ∧ [tag] ++ write x = (f x).writeAs []) :
    (f <$> r).Takes (TakenBehind tag) := by
  refine (hr.mono ?_).map
  rintro x taken rfl
  exact ⟨[], hf x⟩

/-- A constant with two parts. -/
theorem takes_parts {tag : UInt8} {f : UInt16 → UInt16 → Constant}
    (hf : ∀ x y, (f x y).SpeltBy [] ∧ [tag] ++ (Bytes.u16 x ++ Bytes.u16 y) = (f x y).writeAs []) :
    (f <$> u16 <*> u16).Takes (TakenBehind tag) := by
  have hfirst : (f <$> u16).Takes fun g taken => ∃ x, g = f x ∧ taken = Bytes.u16 x :=
    (takes_u16.mono fun x taken htaken => ⟨x, rfl, htaken⟩).map
  refine hfirst.bind fun g taken hg => (takes_u16.mono ?_).map
  obtain ⟨x, rfl, rfl⟩ := hg
  rintro y more rfl
  exact ⟨[], hf x y⟩

theorem code_of_ofCode? {code : UInt8} {kind : ReferenceKind}
    (h : ReferenceKind.ofCode? code = some kind) : kind.code = code := by
  unfold ReferenceKind.ofCode? at h
  split at h <;> cases h <;> rfl

theorem takes_readHandle : readHandle.Takes (TakenBehind 15) := by
  refine takes_u8.bind fun code taken htaken => ?_
  split
  · rename_i kind hkind
    refine (takes_u16.mono ?_).map
    rintro member more rfl
    refine ⟨[], rfl, ?_⟩
    rw [htaken, ← code_of_ofCode? hkind]
    rfl
  · exact takes_throw

/-- **A constant is taken from one of its spellings.** -/
theorem takes_read : read.Takes fun c taken => ∃ body, c.SpeltBy body ∧ taken = c.writeAs body := by
  refine takes_u8.bind fun tag taken htaken => ?_
  subst htaken
  show Reader.Takes _ (TakenBehind tag)
  split
  · refine (takes_readText.mono ?_).map
    rintro text more ⟨body, hbody, rfl⟩
    exact ⟨body, hbody, by simp [writeAs, Bytes.u8]⟩
  · exact takes_part takes_i32 fun x => ⟨rfl, rfl⟩
  · exact takes_part takes_u32 fun x => ⟨rfl, rfl⟩
  · exact takes_part takes_i64 fun x => ⟨rfl, rfl⟩
  · exact takes_part takes_u64 fun x => ⟨rfl, rfl⟩
  · exact takes_part takes_u16 fun x => ⟨rfl, rfl⟩
  · exact takes_part takes_u16 fun x => ⟨rfl, rfl⟩
  · exact takes_parts fun x y => ⟨rfl, rfl⟩
  · exact takes_parts fun x y => ⟨rfl, rfl⟩
  · exact takes_parts fun x y => ⟨rfl, rfl⟩
  · exact takes_parts fun x y => ⟨rfl, rfl⟩
  · exact takes_readHandle
  · exact takes_part takes_u16 fun x => ⟨rfl, rfl⟩
  · exact takes_parts fun x y => ⟨rfl, rfl⟩
  · exact takes_parts fun x y => ⟨rfl, rfl⟩
  · exact takes_part takes_u16 fun x => ⟨rfl, rfl⟩
  · exact takes_part takes_u16 fun x => ⟨rfl, rfl⟩
  · exact takes_throw

end Constant

/-! ## The constant pool -/

namespace ConstantPool

variable {p q : ConstantPool} {cursor cursor' : Cursor} {count fuel next : Nat}
  {constants : List Constant}

/-- **Reading goes on until it comes to the count.** -/
theorem spelt_of_readOnto (hfuel : count ≤ p.count + fuel)
    (h : readOnto count fuel p cursor = .ok (q, cursor')) : ∃ constants texts,
      q.entries.toList = p.entries.toList ++ constants.flatMap slots ∧
      Fills count p.count constants ∧
      List.Forall₂ (fun constant body => constant.SpeltBy body) constants texts ∧
      cursor.ahead = (List.zipWith (fun constant body => constant.writeAs body)
        constants texts).flatten ++ cursor'.ahead := by
  -- over the fuel, which is never used up: each constant takes an index or two
  induction fuel generalizing p cursor with
  | zero =>
    cases h
    exact ⟨[], [], by simp, .done hfuel, .nil, rfl⟩
  | succ fuel ih =>
    rw [readOnto] at h
    split at h
    · rename_i hbelow
      split at h
      · cases h
      · rename_i c cursor₁ hc
        split at h
        · cases h
        · rename_i i p₁ hadd
          obtain ⟨-, -, hp₁⟩ := add_eq_ok hadd
          have hcount₁ : p₁.count = p.count + c.width := count_of_append hp₁
          have hpos := c.width_pos
          obtain ⟨constants, texts, hq, hfills, htexts, hahead⟩ := ih (by omega) h
          obtain ⟨taken, hahead₁, body, hbody, rfl⟩ := Constant.takes_read _ _ _ hc
          refine ⟨c :: constants, body :: texts, ?_, ?_, .cons hbody htexts, ?_⟩
          · rw [hq, hp₁, List.flatMap_cons, List.append_assoc]
          · rw [hcount₁] at hfills
            exact .more hbelow hfills
          · rw [hahead₁, hahead, List.zipWith_cons_cons, List.flatten_cons, List.append_assoc]
    · rename_i hdone
      cases h
      exact ⟨[], [], by simp, .done (by omega), .nil, rfl⟩

/-- **A pool is taken from one of its spellings.** -/
theorem spelt_of_read (h : read cursor = .ok (p, cursor')) : ∃ count texts,
    Fills count.toNat 1 p.inOrder ∧
    List.Forall₂ (fun constant body => constant.SpeltBy body) p.inOrder texts ∧
    cursor.ahead = p.writeAs count texts ++ cursor'.ahead := by
  rw [read] at h
  split at h
  · cases h
  · rename_i count cursor₁ hcount
    obtain ⟨taken, hahead, rfl⟩ := takes_u16 _ _ _ hcount
    obtain ⟨constants, texts, hp, hfills, htexts, hahead₁⟩ :=
      spelt_of_readOnto (Nat.le_add_left _ _) h
    have hholds : p.Holds constants := hp
    have horder : p.inOrder = constants := hholds.inOrder_eq
    subst horder
    refine ⟨count, texts, hfills, htexts, ?_⟩
    rw [hahead, hahead₁, writeAs, List.append_assoc]

/-- **The count that a file gives** is that of its constants, unless it is the 0 of a pool without
constants, or the last constant is of width two and goes past it. -/
theorem Fills.cases_count (h : Fills count next constants) :
    count = next + Constant.totalWidth constants ∨ (constants = [] ∧ count < next) ∨
      ∃ front last, constants = front ++ [last] ∧ last.width = 2 ∧
        count + 1 = next + Constant.totalWidth constants := by
  induction h with
  | @done next hle =>
    have hnone : Constant.totalWidth [] = 0 := rfl
    rcases Nat.lt_or_eq_of_le hle with hlt | heq
    · exact .inr (.inl ⟨rfl, hlt⟩)
    · exact .inl (by omega)
  | @more next c behind hbelow hbehind ih =>
    have hwidth := width_cases c
    rw [totalWidth_cons]
    obtain heq | ⟨rfl, hlt⟩ | ⟨front, last, rfl, hwide, hcount⟩ := ih
    · exact .inl (by omega)
    · -- the constant is the last one: it starts below the count and ends behind it
      have hnone : Constant.totalWidth [] = 0 := rfl
      exact .inr (.inr ⟨[], c, rfl, by omega, by omega⟩)
    · exact .inr (.inr ⟨c :: front, last, rfl, hwide, by omega⟩)

end ConstantPool

/-! ## What stands behind the pool -/

theorem Flags.takes_read {known : UInt16} : (read : Reader (Flags known)).Takes fun flags taken =>
    ∃ word, ofBits word = flags ∧ taken = .u16 word :=
  (takes_u16.mono fun word _ htaken => ⟨word, rfl, htaken⟩).map

theorem Version.takes_read : read.Takes fun v taken => taken = v.write := by
  refine takes_u16.bind fun minor taken htaken => takes_u16.bind fun major more hmore => ?_
  refine takes_pure ?_
  rw [htaken, hmore, List.append_nil]
  rfl

theorem Attribute.takes_read : read.Takes fun a taken => taken = a.write := by
  refine takes_u16.bind fun name taken hname => takes_u32.bind fun length more hlength => ?_
  refine (takes_bytes _).bind fun body rest hbody => takes_pure ?_
  obtain ⟨rfl, hrest⟩ := hbody
  rw [write, hname, hlength, hrest, UInt32.ofNat_toNat]
  simp

/-- **A member is taken from one of its spellings.** -/
theorem Member.takes_read {known : UInt16} : (read : Reader (Member known)).Takes fun m taken =>
    ∃ word, Flags.ofBits word = m.flags ∧ taken = m.writeAs word := by
  refine Flags.takes_read.bind fun flags taken hflags => takes_u16.bind fun name taken₁ hname => ?_
  refine takes_u16.bind fun descriptor taken₂ hdescriptor => ?_
  refine (takes_counted_write Attribute.takes_read).bind fun attributes taken₃ hattributes => ?_
  obtain ⟨word, hword, rfl⟩ := hflags
  refine takes_pure ⟨word, hword, ?_⟩
  rw [hname, hdescriptor, hattributes, writeAs]
  simp

/-- Members behind their number. -/
theorem Member.takes_counted_read {known : UInt16} :
    (counted (read : Reader (Member known))).Takes fun ms taken =>
      ∃ words, List.Forall₂ (fun m word => Flags.ofBits word = m.flags) ms words ∧
        taken = .u16 (UInt16.ofNat ms.length) ++
          (List.zipWith (fun m word => m.writeAs word) ms words).flatten := by
  refine (takes_counted Member.takes_read).mono ?_
  rintro ms taken ⟨parts, hparts, rfl⟩
  obtain ⟨words, hwords, rfl⟩ := exists_zipWith_of_forall₂ hparts
  exact ⟨words, hwords, rfl⟩

namespace ClassFile

variable {bytes : Bytes} {c : ClassFile} {s : Spelling}

theorem takes_readVersion : readVersion.Takes fun v taken => taken = .u32 magic ++ v.write := by
  refine takes_u32.bind fun found taken hfound => ?_
  split
  · rename_i heq
    refine Version.takes_read.mono fun v more hmore => ?_
    rw [hfound, heq, hmore]
  · exact takes_throw

theorem takes_readBehind (version : Version) (pool : ConstantPool) :
    (readBehind version pool).Takes fun c taken => c.version = version ∧ c.pool = pool ∧
      ∀ count texts,
        ConstantPool.Fills count.toNat 1 pool.inOrder →
        List.Forall₂ (fun constant body => constant.SpeltBy body) pool.inOrder texts →
        ∃ s : Spelling, s.count = count ∧ s.texts = texts ∧ s.Spells c ∧
          taken = c.writeBehindAs s := by
  refine Flags.takes_read.bind fun flags taken hflags => takes_u16.bind fun this taken₁ hthis => ?_
  refine takes_u16.bind fun super taken₂ hsuper => ?_
  refine (takes_counted_write takes_u16).bind fun interfaces taken₃ hinterfaces => ?_
  refine Member.takes_counted_read.bind fun fields taken₄ hfields => ?_
  refine Member.takes_counted_read.bind fun methods taken₅ hmethods => ?_
  refine (takes_counted_write Attribute.takes_read).bind fun attributes taken₆ hattributes => ?_
  obtain ⟨word, hword, rfl⟩ := hflags
  obtain ⟨fieldWords, hfieldWords, rfl⟩ := hfields
  obtain ⟨methodWords, hmethodWords, rfl⟩ := hmethods
  refine takes_pure ⟨rfl, rfl, fun count texts hfills htexts => ?_⟩
  refine ⟨⟨count, texts, word, fieldWords, methodWords⟩, rfl, rfl,
    ⟨hfills, htexts, hword, hfieldWords, hmethodWords⟩, ?_⟩
  rw [hthis, hsuper, hinterfaces, hattributes, writeBehindAs]
  simp

/-- **Every file is a spelling of the class** that is read from it. -/
theorem spelt_of_read (h : read bytes = .ok c) :
    ∃ s : Spelling, s.Spells c ∧ bytes = c.writeAs s := by
  obtain ⟨⟨v, cursor⟩, hversion, h⟩ := Except.bind_eq_ok.1 h
  obtain ⟨⟨pool, cursor'⟩, hpool, h⟩ := Except.bind_eq_ok.1 h
  obtain ⟨⟨file, cursor''⟩, hfile, h⟩ := Except.bind_eq_ok.1 h
  dsimp only at h
  split at h
  · rename_i hend
    cases h
    obtain ⟨taken, hahead, rfl⟩ := takes_readVersion _ _ _ (Except.mapError_eq_ok.1 hversion)
    obtain ⟨count, texts, hfills, htexts, hahead'⟩ := ConstantPool.spelt_of_read hpool
    obtain ⟨behind, hahead'', rfl, rfl, hspells⟩ :=
      takes_readBehind _ _ _ _ _ (Except.mapError_eq_ok.1 hfile)
    obtain ⟨s, rfl, rfl, hs, rfl⟩ := hspells count texts hfills htexts
    refine ⟨s, hs, ?_⟩
    have hnone : cursor''.ahead = [] := List.isEmpty_iff.1 hend
    have hbytes : (Cursor.start bytes).ahead = bytes := rfl
    rw [← hbytes, hahead, hahead', hahead'', hnone, List.append_nil, writeAs]
  · cases h

end ClassFile

/-! ## The spelling that is written -/

theorem Constant.writeAs_eq_write {c : Constant} {body : Bytes} (h : c.SpeltBy body)
    (hcanonical : ∀ text, ModifiedUtf8.decode body = .ok text → body = ModifiedUtf8.encode text) :
    c.writeAs body = c.write := by
  cases c with
  | utf8 text =>
    obtain ⟨-, htext⟩ := h
    have hbody := hcanonical text htext
    subst hbody
    rfl
  | _ => rfl

theorem Flags.bits_eq {known word : UInt16} {flags : Flags known} (h : ofBits word = flags)
    (hknown : word &&& known = word) : flags.bits = word := by
  rw [← h]
  exact hknown

theorem Member.writeAs_eq_write {known word : UInt16} {m : Member known}
    (h : Flags.ofBits word = m.flags) (hknown : word &&& known = word) :
    m.writeAs word = m.write := by
  rw [writeAs, write, Flags.write, Flags.bits_eq h hknown]

namespace ClassFile

variable {bytes : Bytes} {c : ClassFile} {s : Spelling}

theorem writePool_eq (hs : s.Spells c) (hcanonical : s.Canonical) :
    c.pool.write = c.pool.writeAs (UInt16.ofNat c.pool.count) s.texts := by
  have htexts : List.zipWith (fun constant body => constant.writeAs body) c.pool.inOrder s.texts =
      c.pool.inOrder.map Constant.write :=
    zipWith_eq_map hs.texts fun constant body hbody h =>
      Constant.writeAs_eq_write h (hcanonical.texts body hbody)
  rw [ConstantPool.writeAs, htexts]
  rfl

theorem writeBehind_eq (hs : s.Spells c) (hcanonical : s.Canonical) :
    c.writeBehind = c.writeBehindAs s := by
  have hfields : List.zipWith (fun f word => f.writeAs word) c.fields.toList s.fieldFlags =
      c.fields.toList.map Member.write :=
    zipWith_eq_map hs.fieldFlags fun f word hword h =>
      Member.writeAs_eq_write h (hcanonical.fieldFlags word hword)
  have hmethods : List.zipWith (fun m word => m.writeAs word) c.methods.toList s.methodFlags =
      c.methods.toList.map Member.write :=
    zipWith_eq_map hs.methodFlags fun m word hword h =>
      Member.writeAs_eq_write h (hcanonical.methodFlags word hword)
  rw [writeBehindAs, hfields, hmethods, ← Flags.bits_eq hs.flags hcanonical.flags]
  rfl

/-- **What is written is what was read but for the count**, if the file was canonical. -/
theorem write_eq_writeAs (hs : s.Spells c) (hcanonical : s.Canonical) :
    c.write = c.writeAs { s with count := UInt16.ofNat c.pool.count } := by
  rw [write_eq, writePool_eq hs hcanonical, writeBehind_eq hs hcanonical]
  rfl

/-- The count can be told from the bytes. -/
theorem writeAs_count_inj {count count' : UInt16} :
    c.writeAs { s with count := count } = c.writeAs { s with count := count' } ↔
      count = count' := by
  constructor
  · intro h
    rw [writeAs, writeAs, List.append_cancel_left_eq, ConstantPool.writeAs, ConstantPool.writeAs,
      List.append_assoc, List.append_assoc] at h
    have hcounts := List.append_inj_left h rfl
    have hfound := finds_u16 (o := 0) count []
    rw [hcounts, finds_u16 (o := 0) count' []] at hfound
    cases hfound
    rfl
  · rintro rfl
    rfl

/-- **How far what is written is what was read.** A file is a spelling of the class that is read
from it. If its texts are written as the program writes them and its flags all have a meaning, then
writing the class gives the file again but for the count of the pool, which is computed from the
constants. The two counts are the same, or the file has the count 0 and no constants, or its last
constant is of width two and goes past the count by one. -/
theorem write_of_read (h : read bytes = .ok c) :
    (∃ s : Spelling, s.Spells c ∧ bytes = c.writeAs s) ∧
    ∀ s : Spelling, s.Spells c → bytes = c.writeAs s → s.Canonical →
      c.write = c.writeAs { s with count := UInt16.ofNat c.pool.count } ∧
      (c.write = bytes ↔ s.count.toNat = c.pool.count) ∧
      (s.count.toNat = c.pool.count ∨ (s.count = 0 ∧ c.pool.inOrder = []) ∨
        ∃ front last, c.pool.inOrder = front ++ [last] ∧ last.width = 2 ∧
          s.count.toNat + 1 = c.pool.count) := by
  refine ⟨spelt_of_read h, fun s hs hbytes hcanonical => ?_⟩
  have hwrite := write_eq_writeAs hs hcanonical
  have hindexed := (stored_of_read h).pool.packed.indexed
  refine ⟨hwrite, ?_, ?_⟩
  · have hsame : c.writeAs { s with count := UInt16.ofNat c.pool.count } = c.writeAs s ↔
        UInt16.ofNat c.pool.count = s.count := writeAs_count_inj
    rw [hwrite, hbytes, hsame, ← UInt16.toNat_inj, hindexed.count_exact]
    exact eq_comm
  · have hcount := hindexed.count_eq
    obtain heq | ⟨hnone, hlt⟩ | ⟨front, last, hlast, hwide, hpast⟩ := hs.count.cases_count
    · exact .inl (by omega)
    · have hzero : s.count = 0 := by
        rw [← UInt16.toNat_inj]
        exact Nat.lt_one_iff.1 hlt
      exact .inr (.inl ⟨hzero, hnone⟩)
    · exact .inr (.inr ⟨front, last, hlast, hwide, by omega⟩)

/-- A class whose last constant is of width two. -/
def wideLastClass : ClassFile where
  version := .java8
  pool := ⟨#[none, some (.utf8 "A"), some (.classRef 1), some (.long 7), none]⟩
  flags := .ofBits 0x0021
  thisClass := 2
  superClass := 0
  interfaces := []
  fields := #[]
  methods := #[]
  attributes := #[]

/-- A file with the class, whose count ends in the middle of the last constant. -/
def shortCountFile : Bytes := [
  0xCA, 0xFE, 0xBA, 0xBE, 0, 0, 0, 52,
  0, 4, 1, 0, 1, 0x41, 7, 0, 1, 5, 0, 0, 0, 0, 0, 0, 0, 7,
  0, 0x21, 0, 2, 0, 0, 0, 0, 0, 0, 0, 0, 0, 0]

/-- The spelling in that file. -/
def shortCountSpelling : Spelling := ⟨4, [[0x41], [], []], 0x0021, [], []⟩

theorem spells_shortCountSpelling : shortCountSpelling.Spells wideLastClass := by
  refine ⟨?_, ?_, by decide, .nil, .nil⟩
  · exact .more (by decide) (.more (by decide) (.more (by decide) (.done (by decide))))
  · have htext : ModifiedUtf8.decode [0x41] = .ok "A" := by decide +kernel
    exact .cons ⟨by decide, htext⟩ (.cons rfl (.cons rfl .nil))

theorem canonical_shortCountSpelling : shortCountSpelling.Canonical := by
  refine ⟨?_, by decide, by simp [shortCountSpelling], by simp [shortCountSpelling]⟩
  have htext : ModifiedUtf8.decode [0x41] = .ok "A" := by decide +kernel
  have hnone : ModifiedUtf8.decode [] = .ok "" := by decide +kernel
  intro body hbody text h
  simp only [shortCountSpelling, List.mem_cons, List.not_mem_nil, or_false] at hbody
  rcases hbody with rfl | rfl | rfl
  · cases htext.symm.trans h
    decide +kernel
  · cases hnone.symm.trans h
    decide +kernel
  · cases hnone.symm.trans h
    decide +kernel

/-- The constant of width two goes past the count 4 of the file, and 5 is written. -/
theorem write_of_read_shortCount :
    read shortCountFile = .ok wideLastClass ∧ shortCountSpelling.Canonical ∧
      wideLastClass.write = wideLastClass.writeAs { shortCountSpelling with count := 5 } ∧
      wideLastClass.write ≠ shortCountFile := by
  have hread : read shortCountFile = .ok wideLastClass := by decide +kernel
  have hbytes : shortCountFile = wideLastClass.writeAs shortCountSpelling := by decide +kernel
  obtain ⟨-, hall⟩ := write_of_read hread
  obtain ⟨hwrite, hsame, -⟩ :=
    hall shortCountSpelling spells_shortCountSpelling hbytes canonical_shortCountSpelling
  refine ⟨hread, canonical_shortCountSpelling, hwrite, fun heq => ?_⟩
  have hcount := hsame.1 heq
  revert hcount
  decide

/-- **What is written is read again** as the same class, whatever it was read from. -/
theorem read_write_of_read (h : read bytes = .ok c) : read c.write = .ok c :=
  read_write (stored_of_read h)

/-- A file with the same class, whose text takes more bytes than it needs, with a flag that has no
meaning. -/
def sprawlingFile : Bytes := [
  0xCA, 0xFE, 0xBA, 0xBE, 0, 0, 0, 52,
  0, 4, 1, 0, 2, 0xC1, 0x81, 7, 0, 1, 5, 0, 0, 0, 0, 0, 0, 0, 7,
  0, 0x23, 0, 2, 0, 0, 0, 0, 0, 0, 0, 0, 0, 0]

/-- Other bytes are written, and the class is read from both. -/
theorem read_write_of_read_sprawling :
    read sprawlingFile = .ok wideLastClass ∧ wideLastClass.write ≠ sprawlingFile ∧
      read wideLastClass.write = .ok wideLastClass := by
  have hread : read sprawlingFile = .ok wideLastClass := by decide +kernel
  exact ⟨hread, by decide +kernel, read_write_of_read hread⟩

end ClassFile

end FreshLocal
