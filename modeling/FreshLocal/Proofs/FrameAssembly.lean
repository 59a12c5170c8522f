import FreshLocal.Draft
import FreshLocal.Proofs.PoolGrowth
import FreshLocal.Proofs.StorableBody

/-!
# Frames are stored

A frame is stored with an index for each class and an offset for each label.
The pool grows by the classes that it did not hold, and read with the pool that
there is in the end the frame is the one that was stored.

* `Layout.offsetD16`: the offset of a label in 16 bits.
* `Layout.storeTypes_eq_ok`: **the types of a frame are read back**.
* `StackMapFrame.offset_of_distance?`: distances between frames.
-/

namespace FreshLocal

namespace PoolM

variable {α β : Type} {g : α → PoolM β} {p q : ConstantPool} {xs : List α} {ys : List β}

/-- **A list of steps** that each make the pool grow does so, too, and what is true of each step and
stays true when the pool grows is true in the end. -/
theorem mapM_eq_ok {I : ConstantPool → Prop} {Q : α → β → ConstantPool → Prop}
    (hQ : ∀ x y p q, Q x y p → p.Grows q → Q x y q)
    (hg : ∀ x ∈ xs, ∀ p y q, I p → (g x).run p = .ok y q → p.Grows q ∧ I q ∧ Q x y q)
    (hp : I p) (h : (xs.mapM g).run p = .ok ys q) :
    p.Grows q ∧ I q ∧ List.Forall₂ (fun x y => Q x y q) xs ys := by
  induction xs generalizing p ys with
  | nil =>
    rw [List.mapM_nil] at h
    obtain ⟨rfl, rfl⟩ := pure_eq_ok.1 h
    exact ⟨.refl p, hp, .nil⟩
  | cons x xs ih =>
    rw [List.mapM_cons] at h
    obtain ⟨y, p', hy, h⟩ := bind_eq_ok.1 h
    obtain ⟨ys', q', hys, h⟩ := bind_eq_ok.1 h
    obtain ⟨rfl, rfl⟩ := pure_eq_ok.1 h
    obtain ⟨hgrows, hp', hxy⟩ := hg x (by simp) p y p' hp hy
    obtain ⟨hgrows', hq, hall⟩ := ih (fun x hx => hg x (by simp [hx])) hp' hys
    exact ⟨hgrows.trans hgrows', hq, .cons (hQ x y p' q' hxy hgrows') hall⟩

end PoolM

namespace Layout

variable {layout : Layout} {l : Label}

/-- The offset of a label, or 0 if it has none. -/
def offsetD (layout : Layout) (l : Label) : Nat := layout.labels[l]?.getD 0

/-- The offset in 16 bits. -/
def offsetD16 (layout : Layout) (l : Label) : UInt16 := UInt16.ofNat (layout.offsetD l)

theorem offset_eq_ok {o : Nat} (h : layout.offset l = .ok o) :
    layout.labels[l]? = some o ∧ o = layout.offsetD l := by
  unfold offset at h
  split at h
  · rename_i found hfound
    cases h
    exact ⟨hfound, by rw [offsetD, hfound, Option.getD_some]⟩
  · cases h

theorem offset16_eq_ok {o : UInt16} (h : layout.offset16 l = .ok o) :
    layout.labels[l]? = some (layout.offsetD l) ∧ o = layout.offsetD16 l ∧
      o.toNat = layout.offsetD l := by
  obtain ⟨found, hfound, h⟩ := Except.bind_eq_ok.1 h
  obtain ⟨hlabel, rfl⟩ := offset_eq_ok hfound
  split at h
  · rename_i hle
    cases h
    refine ⟨hlabel, rfl, ?_⟩
    rw [UInt16.toNat_ofNat']
    omega
  · cases h

end Layout

open ConstantPool (GivesClass)

section Stored

/-! What the pool is like does not matter, as long as it stays so when a class is asked for. -/

variable {I : ConstantPool → Prop} {layout : Layout} {p q : ConstantPool}

namespace Frame

/-- Read with a pool that has grown, the type is the given one. -/
def TypeStored (layout : Layout) (t : CodeType) (t' : StoredType) (q : ConstantPool) : Prop :=
  ∀ P, q.Grows P → t'.mapM P.className pure = .ok (t.map id layout.offsetD16)

theorem typeStored_of_mapM {t : CodeType} {t' : StoredType} (hp : I p)
    (ht : ∀ name, t = .object name → GivesClass I name)
    (h : (t.mapM ConstantPool.classIndex fun l => MonadExcept.ofExcept (layout.offset16 l)).run p =
      .ok t' q) : p.Grows q ∧ I q ∧ TypeStored layout t t' q := by
  cases t with
  | object name =>
    obtain ⟨index, hindex, rfl⟩ := PoolM.map_eq_ok.1 h
    obtain ⟨hgrows, hq, hname⟩ := ht name rfl hp hindex
    exact ⟨hgrows, hq, fun P hP => Except.map_eq_ok.2 ⟨name, hP.className hname, rfl⟩⟩
  | uninitialized l =>
    obtain ⟨o, ho, rfl⟩ := PoolM.map_eq_ok.1 h
    obtain ⟨hoffset, rfl⟩ := PoolM.ofExcept_eq_ok.1 ho
    obtain ⟨-, rfl, -⟩ := Layout.offset16_eq_ok hoffset
    exact ⟨.refl _, hp, fun P hP => rfl⟩
  | _ =>
    obtain ⟨rfl, rfl⟩ := PoolM.pure_eq_ok.1 h
    exact ⟨.refl _, hp, fun P hP => rfl⟩

theorem typesStored_of_mapM {ts : List CodeType} {ts' : List StoredType} (hp : I p)
    (hts : ∀ name, .object name ∈ ts → GivesClass I name)
    (h : (ts.mapM (VerificationType.mapM ConstantPool.classIndex fun l =>
      MonadExcept.ofExcept (layout.offset16 l))).run p = .ok ts' q) :
    p.Grows q ∧ I q ∧ ts'.length = ts.length ∧ ∀ P, q.Grows P →
      ts'.mapM (VerificationType.mapM P.className pure) =
        .ok (ts.map (VerificationType.map id layout.offsetD16)) := by
  obtain ⟨hgrows, hq, hall⟩ := PoolM.mapM_eq_ok (Q := TypeStored layout)
    (fun _ _ _ _ hQ hgrows P hP => hQ P (hgrows.trans hP))
    (fun t ht p t' q hp h => typeStored_of_mapM hp (fun name hname => hts name (hname ▸ ht)) h) hp h
  refine ⟨hgrows, hq, hall.length_eq.symm, fun P hP => ?_⟩
  rw [mapM_eq_ok, List.forall₂_map_right_iff]
  exact hall.flip.imp fun t' t ht => ht P hP

end Frame

/-- **A frame that was stored** is read back with a pool that has grown. -/
theorem Layout.storeTypes_eq_ok {f : CodeFrame} {f' : Frame PoolIndex UInt16} (hp : I p)
    (hf : ∀ name, .object name ∈ f.types → GivesClass I name)
    (h : (layout.storeTypes f).run p = .ok f' q) :
    p.Grows q ∧ I q ∧ (f.Fits → f'.Fits) ∧ ∀ P, q.Grows P →
      f'.mapM P.className pure = .ok (f.map id layout.offsetD16) := by
  cases f with
  | same | chop count =>
    obtain ⟨rfl, rfl⟩ := PoolM.pure_eq_ok.1 h
    exact ⟨.refl _, hp, id, fun P hP => rfl⟩
  | sameOne t =>
    obtain ⟨t', ht', rfl⟩ := PoolM.map_eq_ok.1 h
    obtain ⟨hgrows, hq, hstored⟩ := Frame.typeStored_of_mapM hp
      (fun name hname => hf name (by simp [Frame.types, hname])) ht'
    exact ⟨hgrows, hq, id, fun P hP => Except.map_eq_ok.2 ⟨_, hstored P hP, rfl⟩⟩
  | append more =>
    obtain ⟨more', hmore, rfl⟩ := PoolM.map_eq_ok.1 h
    obtain ⟨hgrows, hq, hlength, hstored⟩ := Frame.typesStored_of_mapM hp hf hmore
    refine ⟨hgrows, hq, fun hfits => ?_, fun P hP => Except.map_eq_ok.2 ⟨_, hstored P hP, rfl⟩⟩
    rw [Frame.Fits, hlength]
    exact hfits
  | full locals stack =>
    obtain ⟨g, p', stack', hg, hstack, rfl⟩ := PoolM.seq_eq_ok.1 h
    obtain ⟨locals', hlocals, rfl⟩ := PoolM.map_eq_ok.1 hg
    obtain ⟨hgrows, hp', hlength, hstored⟩ := Frame.typesStored_of_mapM hp
      (fun name hname => hf name (List.mem_append_left _ hname)) hlocals
    obtain ⟨hgrows', hq, hlength', hstored'⟩ := Frame.typesStored_of_mapM hp'
      (fun name hname => hf name (List.mem_append_right _ hname)) hstack
    refine ⟨hgrows.trans hgrows', hq, fun hfits => ?_, fun P hP => ?_⟩
    · rw [Frame.Fits, hlength, hlength']
      exact hfits
    · refine Except.seq_eq_ok.2 ⟨_, _, Except.map_eq_ok.2 ⟨_, hstored P (hgrows'.trans hP), rfl⟩,
        hstored' P hP, rfl⟩

/-- **A frame with its distance** that was stored. -/
theorem Layout.storeFrame_eq_ok {distance : UInt16} {f : CodeFrame} {stored : StackMapFrame}
    (hp : I p) (hf : ∀ name, .object name ∈ f.types → GivesClass I name)
    (hfull : ∀ locals stack, f = .full locals stack → locals.length ≤ 65535 ∧ stack.length ≤ 65535)
    (h : (layout.storeFrame distance f).run p = .ok stored q) :
    p.Grows q ∧ I q ∧ stored.distance = distance ∧ stored.frame.Fits ∧ ∀ P, q.Grows P →
      stored.frame.mapM P.className pure = .ok (f.map id layout.offsetD16) := by
  have types (hfits : f.Fits) (h : ((⟨distance, ·⟩) <$> layout.storeTypes f).run p = .ok stored q) :
      p.Grows q ∧ I q ∧ stored.distance = distance ∧ stored.frame.Fits ∧ ∀ P, q.Grows P →
        stored.frame.mapM P.className pure = .ok (f.map id layout.offsetD16) := by
    obtain ⟨f', hf', rfl⟩ := PoolM.map_eq_ok.1 h
    obtain ⟨hgrows, hq, hfits', hstored⟩ := Layout.storeTypes_eq_ok hp hf hf'
    exact ⟨hgrows, hq, rfl, hfits' hfits, hstored⟩
  cases f with
  | same | sameOne t => exact types trivial h
  | full locals stack => exact types (hfull locals stack rfl) h
  | chop count =>
    simp only [storeFrame] at h
    split at h
    · rename_i hcount
      obtain ⟨rfl, rfl⟩ := PoolM.pure_eq_ok.1 h
      exact ⟨.refl _, hp, rfl, hcount, fun P hP => rfl⟩
    · exact absurd h PoolM.throw_ne_ok
  | append more =>
    simp only [storeFrame] at h
    split at h
    · rename_i hcount
      exact types hcount h
    · exact absurd h PoolM.throw_ne_ok

end Stored

namespace StackMapFrame

/-- A frame is at the distance that was worked out for it. -/
theorem offset_of_distance? {before : Option Nat} {o d : Nat} (h : distance? before o = some d)
    (hle : ∀ q, before = some q → q ≤ o) : offset before d = o := by
  cases before with
  | none => cases h; rfl
  | some q =>
    have hq := hle q rfl
    simp only [distance?] at h
    split at h
    · cases h
    · cases h
      simp only [offset]
      omega

theorem le_of_distance? {before : Option Nat} {o d : Nat} (h : distance? before o = some d) :
    d ≤ o := by
  cases before with
  | none => cases h; exact Nat.le_refl _
  | some q =>
    simp only [distance?] at h
    split at h
    · cases h
    · cases h
      omega

end StackMapFrame

end FreshLocal
