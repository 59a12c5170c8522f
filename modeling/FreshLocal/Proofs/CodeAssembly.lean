import FreshLocal.Proofs.FrameAssembly
import FreshLocal.Proofs.Placement

/-!
# Code is stored

Item by item, the operations of a body become the bytes of its code, and its
frames become entries of a table. Read back, the code gives the operations at
the offsets of the layout, and the table gives the frames at theirs.

* `PlacedItem.Fine`: what an item needs to be stored and read back.
* `Layout.encodeBranch_eq_ok`: **a branch is read back**, with the offsets of its labels.
* `Layout.assembleItem_cases`: what the storing of one item does.
* `Layout.assembleItems_code`: **the code is read back**, whatever the frames are.
* `Layout.assembleItems_eq_ok`: **so are all items**.
-/

namespace FreshLocal

variable {layout : Layout} {p : PlacedItem} {pool pool' : ConstantPool}

/-- An operation at its offset, with the offsets of its labels. -/
def Layout.operation? (layout : Layout) (p : PlacedItem) : Option (Nat × Operation Nat) :=
  match p.item with
  | .operation op => some (p.offset, op.map layout.offsetD)
  | _ => none

/-- What an item needs for the code to be read back, if it is an operation. -/
def PlacedItem.Encodable (layout : Layout) (p : PlacedItem) : Prop :=
  ∀ op, p.item = .operation op → op.Fits ∧
    (∀ l ∈ op.targets, layout.offsetD l < layout.length) ∧
      (p.wide = true → p.item.widenable?.isSome)

/-- What an item needs to be stored and read back. -/
def PlacedItem.Fine (layout : Layout) (p : PlacedItem) : Prop :=
  match p.item with
  | .label _ => True
  | .frame f => f.ShortNames ∧
    ∀ locals stack, f = .full locals stack → locals.length ≤ 65535 ∧ stack.length ≤ 65535
  | .operation op => op.Fits ∧ (∀ l ∈ op.targets, layout.offsetD l < layout.length) ∧
    (p.wide = true → p.item.widenable?.isSome)

theorem PlacedItem.Fine.encodable (h : p.Fine layout) : p.Encodable layout := by
  intro op hp
  rw [Fine, hp] at h
  exact ⟨h.1, h.2.1, fun hwide => hp ▸ h.2.2 hwide⟩

namespace Layout

theorem storedDistance_eq_ok {b : Branch Label} {l : Label} {d : Int32}
    (h : layout.storedDistance p b l = .ok d) : d = distanceTo p.offset (layout.offsetD l) ∧
      (p.wide = true ∨ b.isSwitch = true ∨
        isNear ((layout.offsetD l : Int) - p.offset) = true) := by
  obtain ⟨n, hn, h⟩ := Except.bind_eq_ok.1 h
  obtain ⟨o, ho, hn⟩ := Except.bind_eq_ok.1 hn
  obtain ⟨-, rfl⟩ := offset_eq_ok ho
  cases hn
  split at h
  · rename_i hreach
    cases h
    rw [Bool.or_eq_true, Bool.or_eq_true, or_assoc] at hreach
    exact ⟨rfl, hreach⟩
  · obtain ⟨o', -, h⟩ := Except.bind_eq_ok.1 h
    cases h

/-- **A branch is read back from its bytes**, with the offsets of its labels. -/
theorem encodeBranch_eq_ok {b : Branch Label} {bytes : Bytes} (hlength : layout.length ≤ 65535)
    (hp : p.item = .operation (.branch b)) (hencodable : p.Encodable layout)
    (hroom : p.offset + b.width p.offset p.wide ≤ layout.length)
    (h : layout.encodeBranch p b = .ok bytes) :
    bytes.length = b.width p.offset p.wide ∧
      (Operation.read layout.length).Finds p.offset bytes
        (p.offset, .branch (b.map layout.offsetD)) := by
  obtain ⟨hfits, htargets, hwide⟩ := hencodable _ hp
  rw [hp] at hwide
  obtain ⟨distances, hdistances, rfl⟩ := Except.map_eq_ok.1 h
  obtain ⟨hall, rfl⟩ := Branch.mapM_ok hdistances fun l _ d hd => (storedDistance_eq_ok hd).1
  have hmap : b.map (fun l => distanceTo p.offset (layout.offsetD l)) =
      (b.map layout.offsetD).map (distanceTo p.offset) := (Branch.map_map _ _ b).symm
  rw [hmap]
  refine ⟨?_, ?_⟩
  · rw [Branch.length_encode, Branch.width_map, Branch.width_map]
  · have hpos := b.width_pos (o := p.offset) p.wide
    refine Operation.finds_branch hlength (by omega) (fun t ht => ?_)
      ((Branch.fits_map _ b).2 hfits) (fun t ht => ?_) (by rwa [Branch.width_map])
    · rw [Branch.targets_map] at ht
      obtain ⟨l, hl, rfl⟩ := List.mem_map.1 ht
      exact htargets l hl
    · rw [Branch.targets_map] at ht
      obtain ⟨l, hl, rfl⟩ := List.mem_map.1 ht
      obtain hpw | hswitch | hnear := (storedDistance_eq_ok (hall l hl)).2
      · refine .inl ⟨hpw, ?_⟩
        have hwidenable := hwide hpw
        cases b <;> first | rfl | cases hwidenable
      · refine .inr (.inl ?_)
        cases b <;> first | rfl | cases hswitch
      · exact .inr (.inr hnear)

/-- What the frames of some items are stored as, behind a frame at the offset `before`. -/
structure StoredFrames (layout : Layout) (before : Option Nat) (ps : List PlacedItem)
    (frames : List StackMapFrame) (pool : ConstantPool) : Prop where
  fits : ∀ f ∈ frames, f.frame.Fits
  count : frames.length = (ps.filterMap PlacedItem.frame?).length
  read : ∀ P, pool.Grows P →
    (StackMapFrame.withOffsetsOnto before (frames.map fun f => (f.distance, f.frame)) []).mapM
      (fun x => (x.1, ·) <$> x.2.mapM P.className pure) =
    .ok ((ps.filterMap PlacedItem.frame?).map fun x => (x.1, x.2.map id layout.offsetD16))

/-- What the items from an offset on are stored as. -/
structure StoredItems (layout : Layout) (o : Nat) (before : Option Nat) (ps : List PlacedItem)
    (stop : Nat) (bytes : Bytes) (frames : List StackMapFrame) (pool : ConstantPool) : Prop
    extends StoredFrames layout before ps frames pool where
  length : o + bytes.length = stop
  tiles : Tiles layout.length o bytes (ps.filterMap layout.operation?)

/-- A label or a frame takes no bytes. -/
theorem width_eq_zero (layout : Layout) (p : PlacedItem) (hp : ∀ op, p.item ≠ .operation op) :
    p.item.width p.offset p.wide = 0 ∧ layout.operation? p = none := by
  refine ⟨Laid.width_other hp p.wide, ?_⟩
  unfold operation?
  split
  · rename_i op hop; exact absurd hop (hp op)
  · rfl

/-- The bytes of an operation. -/
def encodeOperation (layout : Layout) (p : PlacedItem) : Operation Label → Except Fault Bytes
  | .plain i => .ok i.encode
  | .branch b => layout.encodeBranch p b

/-- **What the storing of one item does**: a label leaves no trace, an operation adds its bytes to
the code, and a frame adds an entry to the table. -/
theorem assembleItem_cases {done next : Assembled}
    (h : (layout.assembleItem done p).run pool = .ok next pool') :
    (∃ l, p.item = .label l ∧ next = done ∧ pool' = pool) ∨
    (∃ op bytes, p.item = .operation op ∧ layout.encodeOperation p op = .ok bytes ∧
      next = { done with code := bytes :: done.code } ∧ pool' = pool) ∨
    ∃ f d stored, p.item = .frame f ∧
      StackMapFrame.distance? done.lastFrame p.offset = some d ∧ d ≤ 65535 ∧
      (layout.storeFrame (UInt16.ofNat d) f).run pool = .ok stored pool' ∧
      next = { done with frames := stored :: done.frames, lastFrame := some p.offset } := by
  unfold assembleItem at h
  split at h
  · rename_i l hp
    obtain ⟨rfl, rfl⟩ := PoolM.pure_eq_ok.1 h
    exact .inl ⟨l, hp, rfl, rfl⟩
  · rename_i i hp
    obtain ⟨rfl, rfl⟩ := PoolM.pure_eq_ok.1 h
    exact .inr (.inl ⟨_, _, hp, rfl, rfl, rfl⟩)
  · rename_i b hp
    obtain ⟨bytes, pool₂, hbytes, h⟩ := PoolM.bind_eq_ok.1 h
    obtain ⟨hencoded, rfl⟩ := PoolM.ofExcept_eq_ok.1 hbytes
    obtain ⟨rfl, rfl⟩ := PoolM.pure_eq_ok.1 h
    exact .inr (.inl ⟨_, _, hp, hencoded, rfl, rfl⟩)
  · rename_i f hp
    split at h
    · exact absurd h PoolM.throw_ne_ok
    · rename_i d hd
      split at h
      · rename_i hd16
        obtain ⟨stored, pool₂, hstored, h⟩ := PoolM.bind_eq_ok.1 h
        obtain ⟨rfl, rfl⟩ := PoolM.pure_eq_ok.1 h
        exact .inr (.inr ⟨f, d, stored, hp, hd, hd16, hstored, rfl⟩)
      · exact absurd h PoolM.throw_ne_ok

/-- **An operation is read back from its bytes.** -/
theorem encodeOperation_eq_ok {op : Operation Label} {bytes : Bytes}
    (hlength : layout.length ≤ 65535) (hp : p.item = .operation op)
    (hencodable : p.Encodable layout)
    (hroom : p.offset + p.item.width p.offset p.wide ≤ layout.length)
    (h : layout.encodeOperation p op = .ok bytes) :
    bytes.length = p.item.width p.offset p.wide ∧
      (Operation.read layout.length).Finds p.offset bytes (p.offset, op.map layout.offsetD) := by
  rw [hp] at hroom ⊢
  cases op with
  | plain i =>
    cases h
    exact ⟨i.length_encode, Operation.finds_plain i⟩
  | branch b => exact encodeBranch_eq_ok hlength hp hencodable hroom h

/-- **The code of items that were stored** is read back, operation by operation. -/
theorem assembleItems_code {o stop : Nat} {ps : List PlacedItem} (hlaid : Laid o ps stop)
    (hlength : layout.length ≤ 65535) (hstop : stop ≤ layout.length)
    (hencodable : ∀ p ∈ ps, p.Encodable layout) {done done' : Assembled}
    (h : (ps.foldlM layout.assembleItem done).run pool = .ok done' pool') :
    ∃ bytes, done'.code.reverse.flatten = done.code.reverse.flatten ++ bytes ∧
      o + bytes.length = stop ∧
      Tiles layout.length o bytes (ps.filterMap layout.operation?) := by
  induction ps generalizing o done pool with
  | nil =>
    obtain ⟨rfl, rfl⟩ := PoolM.pure_eq_ok.1 h
    obtain rfl : o = stop := hlaid
    exact ⟨[], by simp, rfl, .nil o⟩
  | cons p ps ih =>
    obtain ⟨rfl, hrest⟩ := hlaid
    rw [List.foldlM_cons] at h
    obtain ⟨next, pool₁, hnext, h⟩ := PoolM.bind_eq_ok.1 h
    obtain ⟨bytes, hcode, hend, htiles⟩ :=
      ih hrest (fun p hp => hencodable p (List.mem_cons_of_mem _ hp)) h
    -- an item that is not an operation adds nothing
    have other (hp : ∀ op, p.item ≠ .operation op) (hsame : next.code = done.code) :
        ∃ bytes, done'.code.reverse.flatten = done.code.reverse.flatten ++ bytes ∧
          p.offset + bytes.length = stop ∧
          Tiles layout.length p.offset bytes ((p :: ps).filterMap layout.operation?) := by
      obtain ⟨hzero, hnone⟩ := width_eq_zero layout p hp
      rw [hzero, Nat.add_zero] at hend htiles
      rw [hsame] at hcode
      exact ⟨bytes, hcode, hend, by rwa [List.filterMap_cons_none hnone]⟩
    obtain ⟨l, hp, rfl, -⟩ | ⟨op, bs, hp, hencode, rfl, -⟩ | ⟨f, d, stored, hp, -, -, -, rfl⟩ :=
      assembleItem_cases hnext
    · exact other (by simp [hp]) rfl
    · have hroom := hrest.le.1.trans hstop
      obtain ⟨hbs, hfinds⟩ :=
        encodeOperation_eq_ok hlength hp (hencodable p List.mem_cons_self) hroom hencode
      have hpos : 0 < bs.length := by
        rw [hbs, hp]
        exact Laid.width_pos op p.wide
      have hsome : layout.operation? p = some (p.offset, op.map layout.offsetD) := by
        rw [operation?, hp]
      refine ⟨bs ++ bytes, ?_, ?_, ?_⟩
      · rw [hcode, List.reverse_cons, List.flatten_append, List.flatten_singleton,
          List.append_assoc]
      · rw [List.length_append, ← Nat.add_assoc, hbs, hend]
      · rw [List.filterMap_cons_some hsome]
        exact .cons hfinds (List.length_pos_iff.1 hpos) (hbs ▸ htiles)
    · exact other (by simp [hp]) rfl

/-- **The frames of items that were stored** are read back with a pool that has grown. -/
theorem assembleItems_frames {I : ConstantPool → Prop} {o stop : Nat} {ps : List PlacedItem}
    (hlaid : Laid o ps stop)
    (hclasses : ∀ x ∈ ps.filterMap PlacedItem.frame?, ∀ name, .object name ∈ x.2.types →
      ConstantPool.GivesClass I name)
    (hfull : ∀ x ∈ ps.filterMap PlacedItem.frame?, ∀ locals stack, x.2 = .full locals stack →
      locals.length ≤ 65535 ∧ stack.length ≤ 65535)
    {done done' : Assembled} (hpool : I pool) (hlast : ∀ q, done.lastFrame = some q → q ≤ o)
    (h : (ps.foldlM layout.assembleItem done).run pool = .ok done' pool') :
    pool.Grows pool' ∧ I pool' ∧ ∃ frames, done'.frames = frames.reverse ++ done.frames ∧
      StoredFrames layout done.lastFrame ps frames pool' := by
  induction ps generalizing o done pool with
  | nil =>
    obtain ⟨rfl, rfl⟩ := PoolM.pure_eq_ok.1 h
    exact ⟨.refl _, hpool, [], by simp, by simp, rfl, fun P hP => rfl⟩
  | cons p ps ih =>
    obtain ⟨rfl, hrest⟩ := hlaid
    rw [List.foldlM_cons] at h
    obtain ⟨next, pool₁, hnext, hlater⟩ := PoolM.bind_eq_ok.1 h
    -- an item that is not a frame adds nothing
    have other (hp : p.frame? = none) (hsame : pool₁ = pool) (hframes : next.frames = done.frames)
        (hlastFrame : next.lastFrame = done.lastFrame) :
        pool.Grows pool' ∧ I pool' ∧ ∃ frames, done'.frames = frames.reverse ++ done.frames ∧
          StoredFrames layout done.lastFrame (p :: ps) frames pool' := by
      subst hsame
      rw [List.filterMap_cons_none hp] at hclasses hfull
      obtain ⟨hgrows, hpool', frames, hdone, hfits, hcount, hread⟩ := ih hrest hclasses hfull hpool
        (fun q hq => (hlast q (hlastFrame ▸ hq)).trans (Nat.le_add_right _ _)) hlater
      rw [hframes] at hdone
      rw [hlastFrame] at hread
      refine ⟨hgrows, hpool', frames, hdone, hfits, ?_, ?_⟩
      · rwa [List.filterMap_cons_none hp]
      · rwa [List.filterMap_cons_none hp]
    obtain ⟨l, hp, rfl, hsame⟩ | ⟨op, bs, hp, -, rfl, hsame⟩ |
      ⟨f, d, stored, hp, hd, hd16, hstored, rfl⟩ := assembleItem_cases hnext
    · exact other (by rw [PlacedItem.frame?, hp]) hsame rfl rfl
    · exact other (by rw [PlacedItem.frame?, hp]) hsame rfl rfl
    · have hframe : p.frame? = some (p.offset, f) := by rw [PlacedItem.frame?, hp]
      rw [List.filterMap_cons_some hframe, List.forall_mem_cons] at hclasses hfull
      obtain ⟨hgrows, hpool₂, hdistance, hfits, hread⟩ :=
        storeFrame_eq_ok hpool hclasses.1 hfull.1 hstored
      have hoffset : StackMapFrame.offset done.lastFrame stored.distance.toNat = p.offset := by
        rw [hdistance, UInt16.toNat_ofNat', Nat.mod_eq_of_lt (by omega)]
        exact StackMapFrame.offset_of_distance? hd hlast
      obtain ⟨hgrows', hpool', frames, hframes, hfits', hcount, hread'⟩ :=
        ih hrest hclasses.2 hfull.2 hpool₂
          (fun q hq => by cases hq; exact Nat.le_add_right _ _) hlater
      refine ⟨hgrows.trans hgrows', hpool', stored :: frames, by simp [hframes],
        List.forall_mem_cons.2 ⟨hfits, hfits'⟩, ?_, fun P hP => ?_⟩
      · rw [List.filterMap_cons_some hframe, List.length_cons, List.length_cons, hcount]
      · rw [List.filterMap_cons_some hframe, List.map_cons,
          StackMapFrame.withOffsetsOnto_cons, hoffset, List.mapM_cons]
        refine Except.bind_eq_ok.2
          ⟨_, Except.map_eq_ok.2 ⟨_, hread P (hgrows'.trans hP), rfl⟩, ?_⟩
        exact Except.bind_eq_ok.2 ⟨_, hread' P hP, rfl⟩

/-- **Items that were stored** are read back. -/
theorem assembleItems_eq_ok {o stop : Nat} {ps : List PlacedItem} (hlaid : Laid o ps stop)
    (hlength : layout.length ≤ 65535) (hstop : stop ≤ layout.length)
    (hfine : ∀ p ∈ ps, p.Fine layout) {done done' : Assembled} (hpool : pool.Stored)
    (hlast : ∀ q, done.lastFrame = some q → q ≤ o)
    (h : (ps.foldlM layout.assembleItem done).run pool = .ok done' pool') :
    pool.Grows pool' ∧ pool'.Stored ∧ ∃ bytes frames,
      done'.code.reverse.flatten = done.code.reverse.flatten ++ bytes ∧
      done'.frames = frames.reverse ++ done.frames ∧
      StoredItems layout o done.lastFrame ps stop bytes frames pool' := by
  obtain ⟨bytes, hcode, hend, htiles⟩ :=
    assembleItems_code hlaid hlength hstop (fun p hp => (hfine p hp).encodable) h
  have hframe : ∀ x ∈ ps.filterMap PlacedItem.frame?, x.2.ShortNames ∧
      ∀ locals stack, x.2 = .full locals stack → locals.length ≤ 65535 ∧ stack.length ≤ 65535 := by
    rintro ⟨q, f⟩ hx
    obtain ⟨p, hp, hpx⟩ := List.mem_filterMap.1 hx
    obtain ⟨-, hitem⟩ := PlacedItem.frame?_eq_some.1 hpx
    have hfinep := hfine p hp
    rwa [PlacedItem.Fine, hitem] at hfinep
  obtain ⟨hgrows, hpool', frames, hframes, hstored⟩ := assembleItems_frames hlaid
    (fun x hx name hname => ConstantPool.givesClass_stored ((hframe x hx).1 _ hname))
    (fun x hx => (hframe x hx).2) hpool hlast h
  exact ⟨hgrows, hpool', bytes, frames, hcode, hframes, hstored, hend, htiles⟩

end Layout

end FreshLocal
