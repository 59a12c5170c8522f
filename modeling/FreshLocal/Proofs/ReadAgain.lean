import FreshLocal.Proofs.CodeRoundTrip
import FreshLocal.Proofs.Completeness
import FreshLocal.Proofs.PoolSettling
import FreshLocal.Proofs.TableSizes
import FreshLocal.Proofs.Truncation

/-!
# A stored body is read as it was stored

The tables of a body are written with the number of their entries in 16 bits, and
their bytes with a length of 32. If what was stored is read without a fault, no
table was too long for either.

**Argument.** The number of entries in a table is not bounded when it is written,
but if it is too large some of its bytes are left over when it is read. For the
length of the bytes, the lines, variables and annotations of a body take no more
than they took where they were read. Only a table of frames may have become too
long, since frames further apart take more bytes. But there is at most one frame
for each byte of the code, and a table of so few frames is not read from a front
of its bytes.

* `Layout.readable_body`: a body that is laid out is one that the reader lets pass.
* `Layout.length_frames_le`: **frames stand at different offsets**.
* `IsTable`, `Body.storeAttributes_tables`: what the tables of a body are stored as.
* `CodeAttribute.Holds.short_of_read`: **what is read is not too long**.
* `Body.tableSize_body`: **tables do not grow** when a body that was read is laid out.
* `Draft.read_again`: **a body that was read and stored** is read as it was laid out.
-/

namespace FreshLocal

open BodyEvent Reader

variable {layout : Layout} {pool pool' P : ConstantPool} {events : List BodyEvent}
  {maxStack maxLocals : UInt16}

/-! ## Bodies that are laid out -/

theorem Frame.fits_map {κ κ' π π' : Type} (f : κ → κ') (g : π → π') (x : Frame κ π) :
    (x.map f g).Fits ↔ x.Fits := by
  cases x <;> simp [Frame.map, Frame.Fits]

namespace Layout

/-- Each operation of a body is one of the events. -/
theorem operation_mem (h : layout.Sound (events.filterMap item?)) {x : Nat × Operation Nat}
    (hx : x ∈ layout.items.filterMap layout.operation?) :
    ∃ op, .operation op ∈ events ∧ x.2 = op.map layout.offsetD := by
  have hmem : x.2 ∈ (layout.body events 0 0).operations.map Prod.snd := List.mem_map_of_mem hx
  rw [operations_body h] at hmem
  obtain ⟨op, hop, hx⟩ := List.mem_map.1 hmem
  exact ⟨op, mem_operations.1 hop, hx.symm⟩

theorem tables_body (h : layout.Sound (events.filterMap item?)) (maxStack maxLocals : UInt16)
    (hall : StorableAll pool events) {name : String}
    (hname : name ∈ (layout.body events maxStack maxLocals).tables) :
    name ∈ events.filterMap table? := by
  have table : ∀ {e : BodyEvent}, e ∈ events → e.table? = some name →
      name ∈ events.filterMap table? := fun he hname => List.mem_filterMap.2 ⟨_, he, hname⟩
  simp only [Body.tables, body, List.mem_append, List.mem_map] at hname
  rcases hname with (((⟨x, ⟨⟨q, f⟩, hf, rfl⟩, rfl⟩ | ⟨l, ⟨x, hx, rfl⟩, rfl⟩) |
    ⟨v, ⟨x, hx, rfl⟩, rfl⟩) | ⟨v, ⟨x, hx, rfl⟩, rfl⟩) | ⟨a, ⟨x, hx, rfl⟩ | ⟨x, hx, rfl⟩, rfl⟩
  · exact table (frame_mem h hall hf).2 rfl
  · exact table (mem_lines.1 hx) rfl
  · exact table (mem_locals.1 hx) rfl
  · exact table (mem_locals.1 hx) rfl
  · exact table (mem_annotations.1 (List.mem_filter.1 hx).1) rfl
  · exact table (mem_annotations.1 (List.mem_filter.1 hx).1) rfl

/-- **A body that is laid out** is one that the reader lets pass. -/
theorem readable_body (h : layout.Sound (events.filterMap item?)) (maxStack maxLocals : UInt16)
    (hall : StorableAll pool events) (hordered : layout.Ordered events)
    (hframes : ∀ f, .frame f ∈ events → f.Fits) :
    (layout.body events maxStack maxLocals).Readable pool := by
  refine ⟨sound_body maxStack maxLocals h hall hordered, fun x hx => ?_, fun x hx => ?_,
    fun x hx => ?_, fun x hx => ?_, fun a ha => ?_, ?_⟩
  · obtain ⟨op, hop, hx⟩ := operation_mem h hx
    obtain ⟨k, hfits, htargets⟩ := hall.storable hop
    rw [hx, Operation.fits_map, Operation.targets_map, starts_body]
    refine ⟨hfits, fun t ht => ?_⟩
    obtain ⟨l, hl, rfl⟩ := List.mem_map.1 ht
    obtain ⟨j, hj, hplace⟩ := htargets l hl
    exact h.mem_starts hplace hj
  · obtain ⟨⟨q, f⟩, hf, rfl⟩ := List.mem_map.1 hx
    have he := (frame_mem h hall hf).2
    obtain ⟨k, hk⟩ := hall.storable he
    exact ⟨Frame.shortNames_map hk.2.1, (Frame.fits_map _ _ f).2 (hframes f he)⟩
  · obtain ⟨x', hx', rfl⟩ := List.mem_map.1 hx
    obtain ⟨k, hfits, -⟩ := hall.storable (mem_handlers.1 hx')
    exact hfits
  · obtain ⟨x', hx', rfl⟩ : ∃ x', x' ∈ events.filterMap annotation? ∧
        x'.map layout.offsetD16 = x := by
      obtain hx | hx := List.mem_append.1 hx
      all_goals
        obtain ⟨x', hx', rfl⟩ := List.mem_map.1 hx
        exact ⟨x', (List.mem_filter.1 hx').1, rfl⟩
    exact h.fits_annotation hall (mem_annotations.1 hx')
  · obtain ⟨k, hk⟩ := hall.storable (mem_attributes.1 ha)
    exact hk
  · refine le_trans (Nat.add_le_add_right (List.Sublist.length_le ?_) _) hall.count
    refine List.monotone_filter_right _ fun name hname => ?_
    rw [decide_eq_true_eq] at hname ⊢
    exact tables_body h maxStack maxLocals hall hname

/-! ## Frames -/

/-- **Frames that were stored** stand one behind the other, each at an offset of its own. -/
theorem pairwise_frames_of_assemble {o stop : Nat} {ps : List PlacedItem} (hlaid : Laid o ps stop)
    {done done' : Assembled} (hlast : ∀ q, done.lastFrame = some q → q ≤ o)
    (h : (ps.foldlM layout.assembleItem done).run pool = .ok done' pool') :
    ((ps.filterMap PlacedItem.frame?).map Prod.fst).Pairwise (· < ·) ∧
      ∀ q, done.lastFrame = some q → ∀ x ∈ ps.filterMap PlacedItem.frame?, q < x.1 := by
  induction ps generalizing o done pool with
  | nil => exact ⟨.nil, fun q _ x hx => absurd hx List.not_mem_nil⟩
  | cons p ps ih =>
    obtain ⟨rfl, hrest⟩ := hlaid
    rw [List.foldlM_cons] at h
    obtain ⟨next, pool₁, hnext, hlater⟩ := PoolM.bind_eq_ok.1 h
    have hbehind : ∀ q, done.lastFrame = some q → q ≤ p.offset + p.item.width p.offset p.wide :=
      fun q hq => (hlast q hq).trans (Nat.le_add_right _ _)
    obtain ⟨l, hp, rfl, -⟩ | ⟨op, bs, hp, -, rfl, -⟩ | ⟨f, d, stored, hp, hd, -, -, rfl⟩ :=
      assembleItem_cases hnext
    · have hnone : p.frame? = none := by rw [PlacedItem.frame?, hp]
      rw [List.filterMap_cons_none hnone]
      exact ih hrest hbehind hlater
    · have hnone : p.frame? = none := by rw [PlacedItem.frame?, hp]
      rw [List.filterMap_cons_none hnone]
      have hrec := fun hlast => ih hrest hlast hlater
      exact hrec hbehind
    · have hsome : p.frame? = some (p.offset, f) := by rw [PlacedItem.frame?, hp]
      obtain ⟨hpairwise, hlt⟩ := ih hrest
        (fun q hq => by cases hq; exact Nat.le_add_right _ _) hlater
      have hlater := hlt p.offset rfl
      rw [List.filterMap_cons_some hsome, List.map_cons, List.pairwise_cons]
      refine ⟨⟨fun o ho => ?_, hpairwise⟩, fun q hq => ?_⟩
      · obtain ⟨x, hx, rfl⟩ := List.mem_map.1 ho
        exact hlater x hx
      · -- two frames at one offset are not stored
        have hne : q ≠ p.offset := by
          intro heq
          rw [hq, StackMapFrame.distance?, if_pos heq] at hd
          cases hd
        have hq' := Nat.lt_of_le_of_ne (hlast q hq) hne
        exact List.forall_mem_cons.2 ⟨hq', fun x hx => hq'.trans (hlater x hx)⟩

end Layout

/-- Numbers in ascending order below a bound are not more than the bound. -/
theorem length_le_of_pairwise_lt {xs : List Nat} {n : Nat} (h : xs.Pairwise (· < ·))
    (hlt : ∀ x ∈ xs, x < n) : xs.length ≤ n := by
  have hsub : xs ⊆ List.range n := fun x hx => List.mem_range.2 (hlt x hx)
  have hle := (List.subperm_of_subset (h.imp Nat.ne_of_lt) hsub).length_le
  rwa [List.length_range] at hle

/-- **Frames that were stored** are not more than the bytes of the code. -/
theorem Layout.length_frames_le {d : Draft} {c : CodeAttribute} (hd : d.Holds events)
    (hall : StorableAll P events) (hlayout : Layout.ofItems (events.filterMap item?) = .ok layout)
    (h : d.assemble.run pool = .ok c pool') :
    (layout.body events maxStack maxLocals).frames.length ≤ 65535 := by
  obtain ⟨layout', done, _, _, _, _, _, _, _, pool₁, _, _, _, _, _, hlayout', hdone, -⟩ :=
    Draft.assemble_iff.1 h
  obtain rfl := Except.ok.inj (hlayout'.symm.trans (hd.items ▸ hlayout))
  have hsound := ofItems_eq_ok hlayout
  obtain ⟨hpairwise, -⟩ :=
    pairwise_frames_of_assemble hsound.laid (fun q hq => by cases hq) hdone
  have hle := length_le_of_pairwise_lt hpairwise fun o ho => by
    obtain ⟨x, hx, rfl⟩ := List.mem_map.1 ho
    exact (hsound.laid.pairwise_starts.2 _ (frame_mem hsound hall hx).1).2
  rw [List.length_map] at hle
  have hlength := hsound.length
  simp only [body, List.length_map]
  omega

/-! ## Tables -/

/-- What a table is stored as: nothing if it is empty, and otherwise its bytes under its name. -/
def IsTable {α : Type} (P : ConstantPool) (name : String) (write : List α → Bytes)
    (entries : List α) (as : List Attribute) : Prop :=
  (entries = [] ∧ as = []) ∨
    entries ≠ [] ∧ ∃ a, as = [a] ∧ P.utf8 a.name = .ok name ∧ a.body = write entries

namespace IsTable

variable {α : Type} {name : String} {write : List α → Bytes} {entries : List α}
  {as : List Attribute}

theorem of_tableAttribute (hP : P.Stored) (hname : name ∈ CodePart.tableNames)
    (h : (tableAttribute name write entries).run pool = .ok as pool') (hgrows : pool'.Grows P) :
    IsTable P name write entries as := by
  have hagain := (settles_tableAttribute name write entries h).2 P hgrows
  obtain ⟨hentries, rfl, -⟩ | ⟨hentries, index, hindex, rfl⟩ := tableAttribute_cases hagain
  · exact .inl ⟨hentries, rfl⟩
  · obtain ⟨-, -, hutf8⟩ :=
      ConstantPool.textIndex_eq_ok hP (shortText_tableNames name hname) hindex
    exact .inr ⟨hentries, _, rfl, hutf8, rfl⟩

theorem length (h : IsTable P name write entries as) :
    as.length = if entries = [] then 0 else 1 := by
  obtain ⟨rfl, rfl⟩ | ⟨hne, a, rfl, -⟩ := h
  · rfl
  · rw [if_neg hne]; rfl

theorem fits (h : IsTable P name write entries as) (hlength : (write entries).length < 2 ^ 32) :
    ∀ a ∈ as, a.Fits := by
  obtain ⟨rfl, rfl⟩ | ⟨-, a, rfl, -, hbody⟩ := h
  · exact fun a ha => absurd ha List.not_mem_nil
  · intro a' ha
    rw [List.mem_singleton.1 ha, Attribute.Fits, hbody]
    exact hlength

end IsTable

/-- Each table with a name was read. -/
theorem CodeAttribute.Tables.exists_read {α : Type} {c : CodeAttribute} {name : String}
    {read : Bytes → Except DecodeFault (List α)} {entries : List α} {a : Attribute}
    (h : c.Tables P name read entries) (ha : a ∈ c.attributes) (hname : P.utf8 a.name = .ok name) :
    ∃ xs, read a.body = .ok xs := by
  obtain ⟨tables, htables, -⟩ := h
  have hmem : a ∈ c.named P name := by
    rw [named, List.mem_filter, hname]
    exact ⟨ha, by simp [Except.toOption]⟩
  obtain ⟨xs, -, hxs⟩ := exists_of_mem_right (mapM_eq_ok.1 htables).flip hmem
  exact ⟨xs, hxs⟩

namespace Frame

/-- The indices of classes change nothing about the length of a frame. -/
theorem fits_of_run {f : Frame String UInt16} {f' : Frame PoolIndex UInt16} (hf : f.Fits)
    (h : (f.mapM ConstantPool.classIndex (pure : UInt16 → PoolM UInt16)).run pool = .ok f' pool') :
    f'.Fits := by
  cases f with
  | same | chop count =>
    obtain ⟨rfl, -⟩ := PoolM.pure_eq_ok.1 h
    exact hf
  | sameOne t =>
    obtain ⟨t', -, rfl⟩ := PoolM.map_eq_ok.1 h
    trivial
  | append more =>
    obtain ⟨more', hmore, rfl⟩ := PoolM.map_eq_ok.1 h
    have hlength := (PoolM.forall₂_of_mapM hmore).length_eq
    exact ⟨hlength ▸ hf.1, hlength ▸ hf.2⟩
  | full locals stack =>
    obtain ⟨g, p, stack', hg, hstack, rfl⟩ := PoolM.seq_eq_ok.1 h
    obtain ⟨locals', hlocals, rfl⟩ := PoolM.map_eq_ok.1 hg
    have hlength := (PoolM.forall₂_of_mapM hlocals).length_eq
    have hlength' := (PoolM.forall₂_of_mapM hstack).length_eq
    exact ⟨hlength ▸ hf.1, hlength' ▸ hf.2⟩

end Frame

namespace Body

variable {b b₁ : Body} {as : List Attribute}

/-- There is an entry for each frame, and it can be written. -/
theorem storeFrames_fits {before : Option Nat} {frames : List (Nat × Frame String UInt16)}
    {stored : List StackMapFrame} (hframes : ∀ x ∈ frames, x.2.Fits)
    (h : (storeFrames before frames).run pool = .ok stored pool') :
    stored.length = frames.length ∧ ∀ f ∈ stored, f.frame.Fits := by
  induction frames generalizing before stored pool with
  | nil =>
    obtain ⟨rfl, -⟩ := PoolM.pure_eq_ok.1 h
    exact ⟨rfl, fun f hf => absurd hf List.not_mem_nil⟩
  | cons x frames ih =>
    obtain ⟨first, p, hfirst, h⟩ := PoolM.bind_eq_ok.1 h
    obtain ⟨others, hothers, rfl⟩ := PoolM.map_eq_ok.1 h
    obtain ⟨hlength, hfits⟩ := ih (fun y hy => hframes y (List.mem_cons_of_mem _ hy)) hothers
    refine ⟨by rw [List.length_cons, List.length_cons, hlength], ?_⟩
    exact List.forall_mem_cons.2 ⟨Frame.fits_of_run (hframes x List.mem_cons_self) hfirst, hfits⟩

/-- **The attributes of a body**, table by table. -/
theorem storeAttributes_tables (h : b.storeAttributes.run pool = .ok as pool')
    (hgrows : pool'.Grows P) (hP : P.Stored) :
    ∃ stored frames lines locals generics visible invisible,
      (∃ p q, (storeFrames none b.frames).run p = .ok stored q) ∧
      IsTable P StackMapFrame.tableName StackMapFrame.writeTable stored frames ∧
      IsTable P LineNumber.tableName LineNumber.writeTable b.lines lines ∧
      IsTable P (VariableEntry.tableName false) VariableEntry.writeTable b.locals locals ∧
      IsTable P (VariableEntry.tableName true) VariableEntry.writeTable b.genericLocals generics ∧
      IsTable P (AnnotatedType.tableName true) AnnotatedType.writeTable
        (b.annotations.filter (·.visible == true)) visible ∧
      IsTable P (AnnotatedType.tableName false) AnnotatedType.writeTable
        (b.annotations.filter (·.visible == false)) invisible ∧
      as = frames ++ lines ++ locals ++ generics ++ visible ++ invisible ++ b.attributes := by
  obtain ⟨stored, frames, lines, locals, generics, visible, invisible, p₁, _, _, _, _, _, hstored,
    hframes, hlines, hlocals, hgenerics, hvisible, hinvisible, rfl⟩ := storeAttributes_cases h
  have grows : ∀ {α : Type} {name : String} {write : List α → Bytes} {entries : List α}
      {as : List Attribute} {p q : ConstantPool},
      (tableAttribute name write entries).run p = .ok as q → p.Grows q :=
    fun h => (settles_tableAttribute _ _ _ h).1
  have hgrows₆ := (grows hinvisible).trans hgrows
  have hgrows₅ := (grows hvisible).trans hgrows₆
  have hgrows₄ := (grows hgenerics).trans hgrows₅
  have hgrows₃ := (grows hlocals).trans hgrows₄
  have hgrows₂ := (grows hlines).trans hgrows₃
  exact ⟨stored, frames, lines, locals, generics, visible, invisible, ⟨pool, p₁, hstored⟩,
    .of_tableAttribute hP (by decide) hframes hgrows₂,
    .of_tableAttribute hP (by decide) hlines hgrows₃,
    .of_tableAttribute hP (by decide) hlocals hgrows₄,
    .of_tableAttribute hP (by decide) hgenerics hgrows₅,
    .of_tableAttribute hP (by decide) hvisible hgrows₆,
    .of_tableAttribute hP (by decide) hinvisible hgrows, rfl⟩

/-- There are not more attributes than 16 bits can say. -/
theorem Readable.length_storeAttributes (hb : b.Readable pool)
    (h : b.storeAttributes.run pool = .ok as pool') (hgrows : pool'.Grows P) (hP : P.Stored) :
    as.length ≤ 65535 := by
  obtain ⟨stored, frames, lines, locals, generics, visible, invisible, ⟨p, q, hstored⟩, hframes,
    hlines, hlocals, hgenerics, hvisible, hinvisible, rfl⟩ := storeAttributes_tables h hgrows hP
  -- a table that is stored is one that the body has, and there is one attribute for it
  have one : ∀ {α : Type} {name : String} {write : List α → Bytes} {entries : List α}
      {as : List Attribute}, IsTable P name write entries as →
      (∀ x ∈ entries, name ∈ b.tables) →
        as.length ≤ if decide (name ∈ b.tables) = true then 1 else 0 := by
    intro α name write entries as htable hmem
    rw [htable.length]
    split
    · exact Nat.zero_le _
    · rename_i hne
      obtain ⟨x, hx⟩ := List.exists_mem_of_ne_nil _ hne
      rw [if_pos (decide_eq_true (hmem x hx))]
  have hlength := (storeFrames_fits (fun x hx => (hb.frames x hx).2) hstored).1
  have hframes := one hframes fun x hx => by
    obtain ⟨y, hy⟩ := List.exists_mem_of_length_pos (hlength ▸ List.length_pos_of_mem hx)
    simp only [tables, List.mem_append]
    exact .inl (.inl (.inl (.inl (List.mem_map.2 ⟨y, hy, rfl⟩))))
  have hlines := one hlines fun x hx => by
    simp only [tables, List.mem_append]
    exact .inl (.inl (.inl (.inr (List.mem_map.2 ⟨x, hx, rfl⟩))))
  have hlocals := one hlocals fun x hx => by
    simp only [tables, List.mem_append]
    exact .inl (.inl (.inr (List.mem_map.2 ⟨x, hx, rfl⟩)))
  have hgenerics := one hgenerics fun x hx => by
    simp only [tables, List.mem_append]
    exact .inl (.inr (List.mem_map.2 ⟨x, hx, rfl⟩))
  have annotated : ∀ visible, ∀ x ∈ b.annotations.filter (·.visible == visible),
      AnnotatedType.tableName visible ∈ b.tables := by
    intro visible x hx
    obtain ⟨hmem, hvisible⟩ := List.mem_filter.1 hx
    simp only [tables, List.mem_append]
    exact .inr (List.mem_map.2 ⟨x, hmem, by rw [eq_of_beq hvisible]⟩)
  have hvisible := one hvisible (annotated true)
  have hinvisible := one hinvisible (annotated false)
  have hcount := hb.count
  rw [← List.countP_eq_length_filter] at hcount
  simp only [CodePart.tableNames, List.countP_cons, List.countP_nil] at hcount
  simp only [List.length_append]
  omega

/-- A body with lists that are not longer than 16 bits can say. -/
structure Short (b : Body) : Prop where
  handlers : b.handlers.length ≤ 65535
  frames : b.frames.length ≤ 65535
  lines : b.lines.length ≤ 65535
  locals : b.locals.length ≤ 65535
  genericLocals : b.genericLocals.length ≤ 65535
  annotations (visible : Bool) : (b.annotations.filter (·.visible == visible)).length ≤ 65535

end Body

namespace CodeAttribute.Holds

variable {b b₁ : Body} {c : CodeAttribute} {n : Nat}

/-- The lists of a body whose tables were read are not too long. -/
theorem short_of_from (hc : c.Holds b pool pool') (hgrows : pool'.Grows P) (hP : P.Stored)
    (hb : b.Readable pool) (hhandlers : b.handlers.length ≤ 65535)
    (hframes : b.frames.length ≤ 65535) (hfrom : b₁.From P c) : b.Short := by
  obtain ⟨stored, frames, lines, locals, generics, visible, invisible, -, -, hlines, hlocals,
    hgenerics, hvisible, hinvisible, hattributes⟩ :=
      Body.storeAttributes_tables hc.attributes hgrows hP
  -- a table that was read back has all its entries behind a number of 16 bits
  have short : ∀ {α : Type} {name what : String} {r : Reader α} {write : α → Bytes}
      {entries entries' : List α} {as : List Attribute},
      IsTable P name (Bytes.counted write) entries as →
      c.Tables P name ((Reader.counted r).whole what) entries' → (∀ a ∈ as, a ∈ c.attributes) →
      (∀ x ∈ entries, write x ≠ []) → (∀ x ∈ entries, ∀ o, r.Finds o (write x) x) →
        entries.length ≤ 65535 := by
    intro α name what r write entries entries' as htable htables has hwrite hfound
    obtain ⟨rfl, -⟩ | ⟨-, a, rfl, hname, hbody⟩ := htable
    · exact Nat.zero_le _
    · obtain ⟨xs, hxs⟩ := htables.exists_read (has a (by simp)) hname
      rw [hbody] at hxs
      exact length_le_of_whole hwrite hfound hxs
  have annotations : ∀ seen as, IsTable P (AnnotatedType.tableName seen) AnnotatedType.writeTable
      (b.annotations.filter (·.visible == seen)) as → (∀ a ∈ as, a ∈ c.attributes) →
        (b.annotations.filter (·.visible == seen)).length ≤ 65535 := by
    intro seen as htable has
    refine short htable (hfrom.annotations seen) has (fun a ha => ?_) fun a ha o => ?_
    · refine List.ne_nil_of_length_pos ?_
      rw [a.length_write, AnnotatedType.size]
      omega
    · obtain ⟨hmem, hseen⟩ := List.mem_filter.1 ha
      have hfound := AnnotatedType.finds_write (o := o) (hb.annotations a hmem)
      rwa [eq_of_beq hseen] at hfound
  have hnonempty : ∀ v : VariableEntry, v.write ≠ [] := fun v =>
    List.ne_nil_of_length_pos (by rw [v.length_write]; omega)
  have hmem : ∀ a, a ∈ lines ∨ a ∈ locals ∨ a ∈ generics ∨ a ∈ visible ∨ a ∈ invisible →
      a ∈ c.attributes := by
    intro a ha
    simp only [hattributes, List.mem_append]
    tauto
  refine ⟨hhandlers, hframes, ?_, ?_, ?_, fun seen => ?_⟩
  · refine short hlines hfrom.lines (fun a ha => hmem a (by tauto)) (fun l _ => ?_)
      fun l _ o => l.finds_write
    exact List.ne_nil_of_length_pos (by rw [l.length_write]; omega)
  · exact short hlocals hfrom.locals (fun a ha => hmem a (by tauto)) (fun v _ => hnonempty v)
      fun v _ o => v.finds_write
  · exact short hgenerics hfrom.genericLocals (fun a ha => hmem a (by tauto))
      (fun v _ => hnonempty v) fun v _ o => v.finds_write
  · cases seen with
    | true => exact annotations true visible hvisible fun a ha => hmem a (by tauto)
    | false => exact annotations false invisible hinvisible fun a ha => hmem a (by tauto)

/-- Only the table of frames may take more bytes than it did before. -/
theorem fits_or_frames (hc : c.Holds b pool pool') (hgrows : pool'.Grows P) (hP : P.Stored)
    (hb : b.Readable pool) (hsize : b.tableSize + 2 < 2 ^ 32) {a : Attribute}
    (ha : a ∈ c.attributes) : a.Fits ∨ ∃ stored p q,
      (Body.storeFrames none b.frames).run p = .ok stored q ∧
      P.utf8 a.name = .ok StackMapFrame.tableName ∧ a.body = StackMapFrame.writeTable stored := by
  obtain ⟨stored, frames, lines, locals, generics, visible, invisible, ⟨p, q, hstored⟩, hframes,
    hlines, hlocals, hgenerics, hvisible, hinvisible, hattributes⟩ :=
      Body.storeAttributes_tables hc.attributes hgrows hP
  rw [Body.tableSize] at hsize
  have annotations : ∀ seen as, IsTable P (AnnotatedType.tableName seen) AnnotatedType.writeTable
      (b.annotations.filter (·.visible == seen)) as → ∀ a ∈ as, a.Fits := by
    intro seen as htable
    refine htable.fits ?_
    have hle : ((b.annotations.filter (·.visible == seen)).map AnnotatedType.size).sum ≤
        (b.annotations.map AnnotatedType.size).sum :=
      (List.filter_sublist.map _).sum_le_sum fun _ _ => Nat.zero_le _
    have hsame : ((b.annotations.filter (·.visible == seen)).map fun a => a.write.length) =
        (b.annotations.filter (·.visible == seen)).map AnnotatedType.size :=
      List.map_congr_left fun a _ => a.length_write
    rw [AnnotatedType.writeTable, Bytes.length_counted, hsame]
    omega
  have ofVariables : ∀ name as vs, IsTable P name VariableEntry.writeTable vs as →
      10 * vs.length + 2 < 2 ^ 32 → ∀ a ∈ as, a.Fits := by
    intro name as vs htable hlength
    refine htable.fits ?_
    simp only [VariableEntry.writeTable, Bytes.length_counted, VariableEntry.length_write,
      List.map_const', List.sum_replicate, smul_eq_mul]
    omega
  have hlinesFit : ∀ a ∈ lines, a.Fits := by
    refine hlines.fits ?_
    simp only [LineNumber.writeTable, Bytes.length_counted, LineNumber.length_write,
      List.map_const', List.sum_replicate, smul_eq_mul]
    omega
  simp only [hattributes, List.mem_append] at ha
  rcases ha with (((((ha | ha) | ha) | ha) | ha) | ha) | ha
  · obtain ⟨-, rfl⟩ | ⟨-, a', rfl, hname, hbody⟩ := hframes
    · cases ha
    · obtain rfl := List.mem_singleton.1 ha
      exact .inr ⟨stored, p, q, hstored, hname, hbody⟩
  · exact .inl (hlinesFit a ha)
  · exact .inl (ofVariables _ _ _ hlocals (by omega) a ha)
  · exact .inl (ofVariables _ _ _ hgenerics (by omega) a ha)
  · exact .inl (annotations true _ hvisible a ha)
  · exact .inl (annotations false _ hinvisible a ha)
  · exact .inl (hb.attributes a ha).1

/-- **What is read is not too long.** Let a body be stored whose tables take no more bytes than 32
bits can say. If it is read from a front of its bytes, then this is all of them, and its lists are
not too long. -/
theorem short_of_read (hc : c.Holds b pool pool') (hgrows : pool'.Grows P) (hP : P.Stored)
    (hb : b.Readable pool) (hcode : c.code.length ≤ 65535) (hhandlers : b.handlers.length ≤ 65535)
    (hframes : b.frames.length ≤ 65535) (hsize : b.tableSize + 2 < 2 ^ 32)
    (hread : Body.read P (c.write.take n) = .ok b₁) : c.write.length ≤ n ∧ c.Fits ∧ b.Short := by
  obtain ⟨c', hc', hb₁⟩ := Body.ofAttribute_of_read hread
  have hfrom := Body.from_of_ofAttribute hb₁
  have hcount := hb.length_storeAttributes hc.attributes hgrows hP
  obtain ⟨hle, hfits⟩ | ⟨front, a, behind, more, hattributes, hlong, hcut⟩ :=
    CodeAttribute.read_cut (by omega) ⟨hc.handlers ▸ hhandlers, hc.handlers ▸ hb.handlers⟩ hcount
      hc'
  · rw [List.take_of_length_le hle] at hc'
    obtain rfl := Except.ok.inj (hc'.symm.trans (CodeAttribute.read_write hfits))
    exact ⟨hle, hfits, hc.short_of_from hgrows hP hb hhandlers hframes hfrom⟩
  · -- only a table of frames can be too long, and then its front is not read
    obtain hfits | ⟨stored, p, q, hstored, hname, hbody⟩ :=
      hc.fits_or_frames hgrows hP hb hsize (a := a) (by rw [hattributes]; simp)
    · exact absurd hfits hlong
    · obtain ⟨fs, hfs⟩ := hfrom.frames.exists_read (a := a.cut) (by rw [hcut]; simp) hname
      obtain ⟨frames, htable, -⟩ := Except.bind_eq_ok.1 hfs
      obtain ⟨hlength, hframesFit⟩ :=
        Body.storeFrames_fits (fun x hx => (hb.frames x hx).2) hstored
      rw [Attribute.cut, hbody] at htable
      have hshort := StackMapFrame.length_le_of_front (hlength ▸ hframes) hframesFit htable
      refine absurd ?_ hlong
      rw [Attribute.Fits, hbody]
      have hmod := Nat.mod_lt (StackMapFrame.writeTable stored).length (show 0 < 2 ^ 32 by decide)
      omega

end CodeAttribute.Holds

/-! ## Bodies that were read -/

/-- Events whose body has short lists have short tables. -/
theorem Layout.bounded_of_short (h : layout.Sound (events.filterMap item?))
    (hframes : ∀ f, .frame f ∈ events → f.Fits)
    (hshort : (layout.body events maxStack maxLocals).Short) : Bounded events := by
  obtain ⟨hhandlers, hframesLen, hlines, hlocals, hgenerics, hannotations⟩ := hshort
  simp only [body, List.length_map] at hhandlers hframesLen hlines hlocals hgenerics
  refine ⟨hhandlers, fun name => ?_, fun locals stack hf => hframes _ hf⟩
  by_cases hname : name ∈ CodePart.tableNames
  · have annotations : ∀ seen, (events.filter
        (·.table? = some (AnnotatedType.tableName seen))).length ≤ 65535 := by
      intro seen
      have hseen := hannotations seen
      rwa [annotations_body, List.length_map, length_annotations] at hseen
    simp only [CodePart.tableNames, List.mem_cons, List.not_mem_nil, or_false] at hname
    rcases hname with rfl | rfl | rfl | rfl | rfl | rfl
    · rwa [← length_frames 0, frames_events h, List.length_map]
    · rwa [← length_lines]
    · rwa [← length_locals]
    · rwa [← length_locals]
    · exact annotations true
    · exact annotations false
  · have hnone : events.filter (·.table? = some name) = [] := by
      refine List.filter_eq_nil_iff.2 fun e _ htable => ?_
      exact hname (mem_tableNames (of_decide_eq_true htable))
    rw [hnone]
    exact Nat.zero_le _

namespace Body

variable {b : Body} {stored : Bytes}

/-- Only lines at operations are sent, each of them once. -/
theorem length_lines_le (hsound : b.Sound) (hnone : b.events.2 = none) :
    (b.events.1.filterMap line?).length ≤ b.lines.length := by
  obtain ⟨attached, hops, -, hevents⟩ := events_eq_of_none hnone
  rw [hevents, (perm_lines hsound hops).length_eq, List.length_map]
  exact List.length_filter_le _ _

/-- Annotations are stored in two tables and with other offsets, but take as many bytes. -/
theorem annotationSize_body (hnone : b.events.2 = none) (layout : Layout)
    (maxStack maxLocals : UInt16) :
    ((layout.body b.events.1 maxStack maxLocals).annotations.map AnnotatedType.size).sum =
      (b.annotations.map AnnotatedType.size).sum := by
  obtain ⟨attached, -, -, hevents⟩ := events_eq_of_none hnone
  have hsize : ∀ as : List (AnnotatedType Label), (as.map (·.map layout.offsetD16)).map
      AnnotatedType.size = as.map AnnotatedType.size := by
    intro as
    rw [List.map_map]
    exact List.map_congr_left fun a _ => a.size_map _
  have hsplit := List.filter_append_perm (fun a : AnnotatedType Label => a.visible == true)
    (b.events.1.filterMap annotation?)
  have hnot : (fun a : AnnotatedType Label => !(a.visible == true)) =
      fun a => a.visible == false := by
    funext a
    cases a.visible <;> rfl
  rw [hnot] at hsplit
  have hsum := (hsplit.map AnnotatedType.size).sum_eq
  simp only [Layout.body, List.map_append, hsize, List.sum_append] at hsum ⊢
  rw [hsum, hevents, annotations_events, List.map_map]
  congr 1
  exact List.map_congr_left fun a _ => a.size_map _

/-- **Tables do not grow** when a body is laid out that was read. -/
theorem tableSize_body (hsound : b.Sound) (hnone : b.events.2 = none) (layout : Layout)
    (maxStack maxLocals : UInt16) :
    (layout.body b.events.1 maxStack maxLocals).tableSize ≤ b.tableSize := by
  have hlines := length_lines_le hsound hnone
  have hlocals : ∀ g, (b.events.1.filterMap (local? g)).length =
      (if g then b.genericLocals else b.locals).length := by
    intro g
    obtain ⟨attached, -, -, hevents⟩ := events_eq_of_none hnone
    rw [hevents, locals_events, List.length_map]
  have hfalse := hlocals false
  have htrue := hlocals true
  simp only [Bool.false_eq_true, if_false, if_true] at hfalse htrue
  rw [tableSize, tableSize, annotationSize_body hnone]
  simp only [Layout.body, List.length_map]
  omega

/-- The frames of a body that was read can be written. -/
theorem Readable.fits_frames (hb : b.Readable pool) (hnone : b.events.2 = none) :
    ∀ f, .frame f ∈ b.events.1 → f.Fits := by
  intro f hf
  obtain ⟨attached, hops, hframes, hevents⟩ := events_eq_of_none hnone
  rw [hevents, eventsWith, List.mem_append, List.mem_append] at hf
  rcases hf with (hf | hf) | hf
  · simp [firstEvents_eq] at hf
  · obtain ⟨x, hx, hf⟩ := List.mem_flatMap.1 hf
    rcases mem_eventsAt hf with h | ⟨l, -, -, h⟩ | ⟨g, hg, h⟩ | h <;> cases h
    have hmem := mem_frames_attached hframes hx hg
    exact (Frame.fits_map _ _ g).2 (hb.frames _ hmem).2
  · rw [lastEvents_eq] at hf
    simp at hf

end Body

/-- **A body that was read, stored and read again** is the one that was laid out. It may be read
from a front of its bytes only if this is all of them. -/
theorem Draft.read_again {d : Draft} {c : CodeAttribute} {before after : Body} {stored : Bytes}
    {pool₀ : ConstantPool} {n : Nat} (hbefore : Body.read pool₀ stored = .ok before)
    (hnone : before.events.2 = none) (hlength : stored.length < 2 ^ 32) (hpool₀ : pool₀.Stored)
    (hd : d.Holds before.events.1) (h : d.assemble.run pool = .ok c pool')
    (hgrows₀ : pool₀.Grows pool) (hpool : pool.Stored) (hgrows : pool'.Grows P) (hP : P.Stored)
    (hafter : Body.read P (c.write.take n) = .ok after) :
    c.write.length ≤ n ∧ ∃ layout, Layout.ofItems (before.events.1.filterMap item?) = .ok layout ∧
      layout.Ordered before.events.1 ∧ c.code = layout.code ∧ c.Holds after pool pool' ∧
      after = layout.body before.events.1 d.maxStack d.maxLocals := by
  have hreadable := Body.readable_of_read hpool₀ hbefore
  have hall := (hreadable.storableAll hnone).grows hgrows₀
  have hframes := hreadable.fits_frames hnone
  obtain ⟨layout, hlayout, hcode, hholds⟩ := holds_of_assemble hd h
  have hsound := Layout.ofItems_eq_ok hlayout
  obtain ⟨hordered, hcodeLength, -⟩ := disassemble_of_assemble hd hall h hlayout
  have hbody := Layout.readable_body hsound d.maxStack d.maxLocals hall hordered hframes
  have hhandlers :
      (layout.body before.events.1 d.maxStack d.maxLocals).handlers.length ≤ 65535 := by
    obtain ⟨c₀, hc₀, hb₀⟩ := Body.ofAttribute_of_read hbefore
    obtain ⟨attached, -, -, hevents⟩ := Body.events_eq_of_none hnone
    simp only [Layout.body, List.length_map]
    rw [hevents, Body.handlers_events, List.length_map, (Body.from_of_ofAttribute hb₀).handlers]
    exact (CodeAttribute.fits_of_read hc₀).handlers.1
  -- the tables take no more bytes than the body took where it was read
  have hsize := Body.tableSize_body hreadable.sound hnone layout d.maxStack d.maxLocals
  have hsize₀ := Body.tableSize_le hbefore
  have hcodeLength' : c.code.length ≤ 65535 := hcodeLength ▸ hsound.length
  obtain ⟨hle, hfits, hshort⟩ := hholds.short_of_read hgrows hP hbody hcodeLength' hhandlers
    (Layout.length_frames_le hd hall hlayout h) (by omega) hafter
  -- all tables are short, so that the body is read back from what was stored
  obtain ⟨-, -, -, -, layout', hlayout', -, hread⟩ :=
    assemble_eq_ok hd hpool hall (Layout.bounded_of_short hsound hframes hshort) h
  obtain rfl := Except.ok.inj (hlayout.symm.trans hlayout')
  rw [List.take_of_length_le hle] at hafter
  obtain ⟨c', hc', hb⟩ := Body.ofAttribute_of_read hafter
  obtain rfl := Except.ok.inj (hc'.symm.trans (CodeAttribute.read_write hfits))
  obtain rfl := Except.ok.inj (hb.symm.trans (hread P hgrows))
  exact ⟨hle, layout, hlayout, hordered, hcode, hholds, rfl⟩

end FreshLocal
