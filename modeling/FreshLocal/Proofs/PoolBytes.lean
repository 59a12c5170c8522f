import FreshLocal.Proofs.PoolGrowth

/-!
# The constant pool as bytes

A pool is written as its constants in order. Reading puts them one behind the
other again and so gives each of them its index back.

* `Constant.finds_write`: **a constant is read back from its bytes**.
* `ConstantPool.read_write`: **a pool is read back from its bytes**.
* `ConstantPool.stored_of_read`: what was read can be written.
-/

namespace FreshLocal

namespace Constant

open Reader

variable {o : Nat}

theorem finds_readText {text : String} (h : ShortText text) :
    readText.Finds o (.u16 (UInt16.ofNat (ModifiedUtf8.encode text).length) ++
      ModifiedUtf8.encode text) text := by
  have hlen : (UInt16.ofNat (ModifiedUtf8.encode text).length).toNat =
      (ModifiedUtf8.encode text).length := by
    unfold ShortText at h
    rw [UInt16.toNat_ofNat']
    omega
  have hbody : (Reader.bytes (UInt16.ofNat (ModifiedUtf8.encode text).length).toNat >>= fun body =>
      (ModifiedUtf8.decode body : Reader String)).Finds
        (o + (Bytes.u16 (UInt16.ofNat (ModifiedUtf8.encode text).length)).length)
        (ModifiedUtf8.encode text) text := by
    refine (finds_bytes hlen.symm).bind_nil ?_
    rw [ModifiedUtf8.decode_encode]
    exact finds_pure text
  exact (finds_u16 _).bind hbody

theorem ofCode?_code (k : ReferenceKind) : ReferenceKind.ofCode? k.code = some k := by
  cases k <;> rfl

theorem finds_readHandle (kind : ReferenceKind) (member : PoolIndex) :
    readHandle.Finds o (.u8 kind.code ++ .u16 member) (methodHandle kind member) := by
  refine (finds_u8 kind.code).bind ?_
  rw [ofCode?_code]
  exact (finds_u16 member).map _

/-- **A constant is read back from its bytes.** -/
theorem finds_write {c : Constant} (h : c.Fits) : read.Finds o c.write c := by
  cases c with
  | utf8 text => exact (finds_u8 1).bind ((finds_readText h).map _)
  | integer value => exact (finds_u8 3).bind ((finds_i32 value).map _)
  | float bits => exact (finds_u8 4).bind ((finds_u32 bits).map _)
  | long value => exact (finds_u8 5).bind ((finds_i64 value).map _)
  | double bits => exact (finds_u8 6).bind ((finds_u64 bits).map _)
  | classRef name => exact (finds_u8 7).bind ((finds_u16 name).map _)
  | string text => exact (finds_u8 8).bind ((finds_u16 text).map _)
  | fieldRef owner signature =>
    exact (finds_u8 9).bind (((finds_u16 owner).map _).seq (finds_u16 signature))
  | methodRef owner signature isInterface =>
    cases isInterface with
    | false => exact (finds_u8 10).bind (((finds_u16 owner).map _).seq (finds_u16 signature))
    | true => exact (finds_u8 11).bind (((finds_u16 owner).map _).seq (finds_u16 signature))
  | nameAndType name descriptor =>
    exact (finds_u8 12).bind (((finds_u16 name).map _).seq (finds_u16 descriptor))
  | methodHandle kind member => exact (finds_u8 15).bind (finds_readHandle kind member)
  | methodType descriptor => exact (finds_u8 16).bind ((finds_u16 descriptor).map _)
  | dynamic bootstrap signature =>
    exact (finds_u8 17).bind (((finds_u16 bootstrap).map _).seq (finds_u16 signature))
  | invokeDynamic bootstrap signature =>
    exact (finds_u8 18).bind (((finds_u16 bootstrap).map _).seq (finds_u16 signature))
  | moduleRef name => exact (finds_u8 19).bind ((finds_u16 name).map _)
  | packageRef name => exact (finds_u8 20).bind ((finds_u16 name).map _)

theorem ensures_readText : readText.Ensures ShortText := by
  refine Ensures.bind fun length => (ensures_bytes _).bind_of fun body hbody => ?_
  intro c text c' htext
  have hdecode := (lift_eq_ok.1 htext).1
  have hle := ModifiedUtf8.length_encode_le hdecode
  have hlt := length.toNat_lt
  unfold ShortText
  omega

/-- **A constant that was read** can be written. -/
theorem ensures_fits : read.Ensures Fits := by
  have trivially {β : Type} (f : β → Constant) (r : Reader β) (h : ∀ x, (f x).Fits) :
      (f <$> r).Ensures Fits := Ensures.map fun _ x _ _ => h x
  have trivially₂ {β γ : Type} (f : β → γ → Constant) (r : Reader β) (r' : Reader γ)
      (h : ∀ x y, (f x y).Fits) : (f <$> r <*> r').Ensures Fits :=
    Ensures.bind_of (P := fun g => ∀ y, (g y).Fits) (Ensures.map fun _ x _ _ y => h x y)
      fun g hg => trivially g r' hg
  refine Ensures.bind fun tag => ?_
  split
  · exact Ensures.map (P := Fits) ensures_readText
  · exact trivially _ _ fun _ => trivial
  · exact trivially _ _ fun _ => trivial
  · exact trivially _ _ fun _ => trivial
  · exact trivially _ _ fun _ => trivial
  · exact trivially _ _ fun _ => trivial
  · exact trivially _ _ fun _ => trivial
  · exact trivially₂ _ _ _ fun _ _ => trivial
  · exact trivially₂ _ _ _ fun _ _ => trivial
  · exact trivially₂ _ _ _ fun _ _ => trivial
  · exact trivially₂ _ _ _ fun _ _ => trivial
  · refine Ensures.bind fun code => ?_
    split
    · exact trivially _ _ fun _ => trivial
    · exact ensures_throw
  · exact trivially _ _ fun _ => trivial
  · exact trivially₂ _ _ _ fun _ _ => trivial
  · exact trivially₂ _ _ _ fun _ _ => trivial
  · exact trivially _ _ fun _ => trivial
  · exact trivially _ _ fun _ => trivial
  · exact ensures_throw

end Constant

namespace ConstantPool

variable {p q : ConstantPool} {c : Constant} {constants : List Constant}

theorem filterMap_slots (c : Constant) : (slots c).filterMap id = [c] := by
  simp [slots]

theorem filterMap_flatMap_slots (constants : List Constant) :
    (constants.flatMap slots).filterMap id = constants := by
  induction constants with
  | nil => rfl
  | cons c rest ih => rw [List.flatMap_cons, List.filterMap_append, filterMap_slots, ih]; rfl

/-- The constants of a pool, as they are written. -/
theorem Holds.write (h : p.Holds constants) : p.write =
    .u16 (UInt16.ofNat p.count) ++ constants.flatMap Constant.write := by
  rw [ConstantPool.write, h, List.filterMap_cons_none rfl, filterMap_flatMap_slots]

/-- **Reading puts constants behind those that are there**, up to the count. -/
theorem readOnto_write {o : Nat} {rest : Bytes} (hfits : ∀ c ∈ constants, c.Fits)
    {count fuel : Nat} (hcount : count = p.count + (constants.flatMap slots).length)
    (hroom : count ≤ 65535) (hfuel : constants.length ≤ fuel) :
    readOnto count fuel p ⟨o, constants.flatMap Constant.write ++ rest⟩ =
      .ok (⟨p.entries.appendList (constants.flatMap slots)⟩,
        ⟨o + (constants.flatMap Constant.write).length, rest⟩) := by
  -- over the constants: the pool that was read so far grows by the slots of each
  induction constants generalizing p o fuel with
  | nil =>
    have hdone : ¬ p.count < count := by simp at hcount; omega
    cases fuel with
    | zero => simp [readOnto]
    | succ fuel => simp [readOnto, hdone]
  | cons c constants ih =>
    cases fuel with
    | zero => simp at hfuel
    | succ fuel =>
      simp only [List.flatMap_cons, List.length_append, length_slots, List.length_cons]
        at hcount hfuel
      have hw := c.width_pos
      have hread := Constant.finds_write (o := o) (hfits c (by simp))
        (constants.flatMap Constant.write ++ rest)
      have hnext : (⟨p.entries.appendList (slots c)⟩ : ConstantPool).count = p.count + c.width :=
        count_of_append (Array.toList_appendList ..)
      have hrest := ih (p := ⟨p.entries.appendList (slots c)⟩) (o := o + c.write.length)
        (fun c' hc' => hfits c' (by simp [hc'])) (by rw [hnext]; omega)
        (Nat.le_of_succ_le_succ hfuel)
      rw [readOnto, if_pos (by omega), List.flatMap_cons, List.append_assoc, hread]
      have hentries : (p.entries.appendList (slots c)).appendList (constants.flatMap slots) =
          p.entries.appendList (slots c ++ constants.flatMap slots) := by
        rw [← Array.toList_inj]
        simp
      simp only [add_run (p := p) (c := c) (by omega), hrest, hentries, List.flatMap_cons,
        List.length_append, Nat.add_assoc]

/-- **A pool is read back from its bytes.** -/
theorem read_write (h : p.Stored) (o : Nat) (rest : Bytes) :
    read ⟨o, p.write ++ rest⟩ = .ok (p, ⟨o + p.write.length, rest⟩) := by
  obtain ⟨constants, hholds, hcount, hfits⟩ := h
  have hsize : p.count = empty.count + (constants.flatMap slots).length := by
    rw [count_eq, hholds, List.length_cons, Nat.add_comm]
    rfl
  have hsmall : (UInt16.ofNat p.count).toNat = p.count := by
    rw [UInt16.toNat_ofNat']
    omega
  have hlen : ∀ constants : List Constant, constants.length ≤ (constants.flatMap slots).length := by
    intro constants
    induction constants with
    | nil => simp
    | cons c rest ih =>
    simp only [List.flatMap_cons, List.length_append, List.length_cons, slots]
    omega
  have hu16 := Reader.finds_u16 (o := o) (UInt16.ofNat p.count)
    (constants.flatMap Constant.write ++ rest)
  have hpool : (⟨empty.entries.appendList (constants.flatMap slots)⟩ : ConstantPool) = p := by
    rw [ConstantPool.mk.injEq, ← Array.toList_inj, hholds]
    simp [empty]
  rw [hholds.write, List.append_assoc, ConstantPool.read, hu16]
  dsimp only
  rw [hsmall, readOnto_write hfits hsize hcount (by have := hlen constants; omega), hpool,
    List.length_append, Nat.add_assoc]

/-- **A pool that was read** can be written. -/
theorem stored_of_read {cursor cursor' : Cursor} (h : read cursor = .ok (p, cursor')) :
    p.Stored := by
  have key : ∀ (count fuel : Nat) (q : ConstantPool) (cursor : Cursor), q.Stored →
      readOnto count fuel q cursor = .ok (p, cursor') → p.Stored := by
    intro count fuel
    induction fuel with
    | zero => rintro q cursor hq ⟨⟩; exact hq
    | succ fuel ih =>
      intro q cursor hq h
      rw [readOnto] at h
      split at h
      · split at h
        · cases h
        · rename_i c cursor₁ hc
          split at h
          · cases h
          · rename_i i q₁ hadd
            exact ih q₁ cursor₁ (hq.add (Constant.ensures_fits _ _ _ hc) hadd) h
      · cases h; exact hq
  unfold read at h
  split at h
  · cases h
  · exact key _ _ _ _ stored_empty h

end ConstantPool

end FreshLocal
