import FreshLocal.Proofs.StoredBody

/-!
# What was put into the pool stays found

A step that looks for a constant adds it if it is not there. Done again with the
pool that it left, or with one that has grown since, it finds the constant at the
same index and adds nothing.

**Argument.** Of equal constants the first is used, and a pool grows at its end
only. So the first one that was found stays the first, and one that was added
behind all others was the first of its kind.

* `PoolM.Settles`: a step that yields the same when it is done again.
* `PoolM.settles_intern`: **looking for a constant** is such a step.
* `Body.settles_storeAttributes`: **so is the storing of a body**.
-/

namespace FreshLocal

namespace PoolM

variable {α β : Type} {x : PoolM α} {f : α → PoolM β} {p q P : ConstantPool} {c : Constant}

/-- A step that, done again with the pool that it left or with one that has grown since, yields the
same and changes nothing. -/
def Settles (x : PoolM α) : Prop :=
  ∀ ⦃p : ConstantPool⦄ ⦃a : α⦄ ⦃q : ConstantPool⦄, x.run p = .ok a q →
    p.Grows q ∧ ∀ P, q.Grows P → x.run P = .ok a P

theorem settles_pure (a : α) : (pure a : PoolM α).Settles := by
  intro p a' q h
  obtain ⟨rfl, rfl⟩ := pure_eq_ok.1 h
  exact ⟨.refl p, fun P _ => rfl⟩

theorem Settles.bind (hx : x.Settles) (hf : ∀ a, (f a).Settles) : (x >>= f).Settles := by
  intro p b q h
  obtain ⟨a, r, ha, hb⟩ := bind_eq_ok.1 h
  obtain ⟨hgrows, hagain⟩ := hx ha
  obtain ⟨hgrows', hagain'⟩ := hf a hb
  refine ⟨hgrows.trans hgrows', fun P hP => ?_⟩
  exact bind_eq_ok.2 ⟨a, P, hagain P (hgrows'.trans hP), hagain' P hP⟩

theorem Settles.map (hx : x.Settles) (g : α → β) : (g <$> x).Settles := by
  intro p b q h
  obtain ⟨a, ha, rfl⟩ := map_eq_ok.1 h
  obtain ⟨hgrows, hagain⟩ := hx ha
  exact ⟨hgrows, fun P hP => map_eq_ok.2 ⟨a, hagain P hP, rfl⟩⟩

theorem Settles.seq {g : PoolM (α → β)} (hg : g.Settles) (hx : x.Settles) :
    (g <*> x).Settles := by
  intro p b q h
  obtain ⟨k, r, a, hk, ha, rfl⟩ := seq_eq_ok.1 h
  obtain ⟨hgrows, hagain⟩ := hg hk
  obtain ⟨hgrows', hagain'⟩ := hx ha
  refine ⟨hgrows.trans hgrows', fun P hP => ?_⟩
  exact seq_eq_ok.2 ⟨k, P, a, hagain P (hgrows'.trans hP), hagain' P hP, rfl⟩

theorem Settles.mapM {xs : List α} (hf : ∀ a, (f a).Settles) : (xs.mapM f).Settles := by
  induction xs with
  | nil => exact settles_pure []
  | cons a xs ih =>
    rw [List.mapM_cons]
    exact (hf a).bind fun b => ih.bind fun bs => settles_pure (b :: bs)

/-- A constant that was found is found again when the pool has grown. -/
theorem findIndex?_grows {test : Constant → Bool} {i : PoolIndex} (hgrows : p.Grows q)
    (h : p.findIndex? test = some i) : q.findIndex? test = some i := by
  rw [ConstantPool.findIndex?_toList] at h ⊢
  obtain ⟨n, hn, rfl⟩ := Option.map_eq_some_iff.1 h
  obtain ⟨more, hq⟩ := hgrows
  refine Option.map_eq_some_iff.2 ⟨n, ?_, rfl⟩
  rw [hq, List.findIdx?_append, hn]
  rfl

/-- **Looking for a constant** that the pool does not have adds it, and then it is found. -/
theorem settles_intern (c : Constant) : (ConstantPool.intern c).Settles := by
  intro p i q h
  obtain ⟨hfound, rfl⟩ | ⟨hnone, hadd⟩ := ConstantPool.intern_cases h
  · exact ⟨.refl q, fun P hP => ConstantPool.intern_of_found (findIndex?_grows hP hfound)⟩
  · obtain ⟨-, hi, hq⟩ := ConstantPool.add_eq_ok hadd
    refine ⟨⟨_, hq⟩, fun P hP => ConstantPool.intern_of_found (findIndex?_grows hP ?_)⟩
    -- the constant is the first one behind those that the pool had
    rw [ConstantPool.findIndex?_append hq, hnone, ← hi, UInt16.ofNat_toNat]
    simp

theorem settles_textIndex (text : String) : (ConstantPool.textIndex text).Settles :=
  settles_intern _

theorem settles_classIndex (name : String) : (ConstantPool.classIndex name).Settles :=
  (settles_textIndex name).bind fun _ => settles_intern _

end PoolM

open PoolM

/-- The classes of a type are found again. -/
theorem VerificationType.settles_mapM (t : VerificationType String UInt16) :
    (t.mapM ConstantPool.classIndex (pure : UInt16 → PoolM UInt16)).Settles := by
  cases t with
  | object name => exact (settles_classIndex name).map _
  | uninitialized made => exact (settles_pure made).map _
  | _ => exact settles_pure _

/-- The classes of a frame are found again. -/
theorem Frame.settles_mapM (f : Frame String UInt16) :
    (f.mapM ConstantPool.classIndex (pure : UInt16 → PoolM UInt16)).Settles := by
  cases f with
  | same | chop _ => exact settles_pure _
  | sameOne t => exact t.settles_mapM.map _
  | append more => exact (Settles.mapM VerificationType.settles_mapM).map _
  | full locals stack =>
    exact ((Settles.mapM VerificationType.settles_mapM).map _).seq
      (Settles.mapM VerificationType.settles_mapM)

theorem settles_namedAttribute (name : String) (body : Bytes) :
    (namedAttribute name body).Settles :=
  (settles_textIndex name).bind fun _ => settles_pure _

theorem settles_tableAttribute {α : Type} (name : String) (write : List α → Bytes)
    (entries : List α) : (tableAttribute name write entries).Settles := by
  unfold tableAttribute
  split
  · exact settles_pure _
  · exact (settles_namedAttribute name _).bind fun _ => settles_pure _

namespace Body

theorem settles_storeFrames (before : Option Nat) (frames : List (Nat × Frame String UInt16)) :
    (storeFrames before frames).Settles := by
  induction frames generalizing before with
  | nil => exact settles_pure _
  | cons x frames ih => exact x.2.settles_mapM.bind fun _ => (ih _).map _

/-- **The attributes of a body** are stored once and for all. -/
theorem settles_storeAttributes (b : Body) : b.storeAttributes.Settles :=
  (settles_storeFrames none b.frames).bind fun _ =>
    (settles_tableAttribute _ _ _).bind fun _ => (settles_tableAttribute _ _ _).bind fun _ =>
      (settles_tableAttribute _ _ _).bind fun _ => (settles_tableAttribute _ _ _).bind fun _ =>
        (settles_tableAttribute _ _ _).bind fun _ => (settles_tableAttribute _ _ _).bind fun _ =>
          settles_pure _

end Body

end FreshLocal
