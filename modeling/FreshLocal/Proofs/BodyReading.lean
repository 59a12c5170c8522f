import FreshLocal.Proofs.BodyEvents
import FreshLocal.Proofs.StorableBody

/-!
# What a body that was read holds

The reader lets a body pass only if each position in it is the start of an
instruction or the end of the code. Its tables come from attributes of its own,
and what is in them has gone through their readers.

* `CodePart.Sound`: what an attribute holds, by its name.
* `Body.attribute_of_table`, `Body.className_of_frames`: where the names of tables and of the
  classes of frames are from.
* `Body.Readable`: a body that the reader lets pass.
* `Body.readable_of_read`: **a body that was read** is one.
* `Body.Readable.storableAll`: **the events of such a body** can be stored.
-/

namespace FreshLocal

variable {pool : ConstantPool} {a : Attribute} {part : CodePart}

namespace CodePart

/-- What a part holds that is from an attribute with the given name. -/
def Sound (name : String) : CodePart → Prop
  | frames fs => name = StackMapFrame.tableName ∧ ∀ x ∈ fs, x.2.ShortNames ∧ x.2.Fits
  | lines _ => name = LineNumber.tableName
  | locals isGeneric _ => name = VariableEntry.tableName isGeneric
  | annotations as =>
    ∃ visible, name = AnnotatedType.tableName visible ∧ ∀ a ∈ as, a.Fits ∧ a.visible = visible
  | other a => name ∉ tableNames ∧ a.Fits

theorem className_of_type {t : VerificationType PoolIndex UInt16}
    {t' : VerificationType String UInt16} (h : t.mapM pool.className pure = .ok t') :
    ∀ name, t' = .object name → ∃ i, pool.className i = .ok name := by
  intro name hobject
  cases t with
  | object index =>
    obtain ⟨name', hname, rfl⟩ := Except.map_eq_ok.1 h
    cases hobject
    exact ⟨index, hname⟩
  | uninitialized made =>
    obtain ⟨made', -, rfl⟩ := Except.map_eq_ok.1 h
    cases hobject
  | _ =>
    cases h
    cases hobject

/-- **The names in a frame** are those of classes of the pool. -/
theorem className_of_mapM {f : Frame PoolIndex UInt16} {f' : Frame String UInt16}
    (h : f.mapM pool.className pure = .ok f') :
    ∀ name, .object name ∈ f'.types → ∃ i, pool.className i = .ok name := by
  have hlist : ∀ (ts : List (VerificationType PoolIndex UInt16)) ts',
      ts.mapM (VerificationType.mapM pool.className pure) = .ok ts' →
        ∀ name, .object name ∈ ts' → ∃ i, pool.className i = .ok name := by
    intro ts ts' hts name ht
    obtain ⟨t', -, ht'⟩ := mem_of_mapM hts ht
    exact className_of_type ht' name rfl
  intro name ht
  cases f with
  | same | chop count => cases h; cases ht
  | sameOne t' =>
    obtain ⟨t'', ht'', rfl⟩ := Except.map_eq_ok.1 h
    exact className_of_type ht'' name (List.mem_singleton.1 ht).symm
  | append more =>
    obtain ⟨more', hmore, rfl⟩ := Except.map_eq_ok.1 h
    exact hlist more more' hmore name ht
  | full locals stack =>
    obtain ⟨g, stack', hg, hstack, rfl⟩ := Except.seq_eq_ok.1 h
    obtain ⟨locals', hlocals, rfl⟩ := Except.map_eq_ok.1 hg
    obtain ht | ht := List.mem_append.1 ht
    · exact hlist locals locals' hlocals name ht
    · exact hlist stack stack' hstack name ht

theorem shortNames_of_mapM (hp : pool.Stored) {f : Frame PoolIndex UInt16}
    {f' : Frame String UInt16} (h : f.mapM pool.className pure = .ok f') : f'.ShortNames := by
  intro t ht
  cases t with
  | object name =>
    obtain ⟨i, hi⟩ := className_of_mapM h name ht
    exact hp.shortClassName hi
  | _ => trivial

/-- Names in place of indices change nothing about the length of a frame. -/
theorem fits_of_mapM {f : Frame PoolIndex UInt16} {f' : Frame String UInt16} (hf : f.Fits)
    (h : f.mapM pool.className pure = .ok f') : f'.Fits := by
  cases f with
  | same => cases h; trivial
  | chop count => cases h; exact hf
  | sameOne t => obtain ⟨t', -, rfl⟩ := Except.map_eq_ok.1 h; trivial
  | append more =>
    obtain ⟨more', hmore, rfl⟩ := Except.map_eq_ok.1 h
    have hlength := (FreshLocal.mapM_eq_ok.1 hmore).length_eq
    exact ⟨hlength ▸ hf.1, hlength ▸ hf.2⟩
  | full locals stack =>
    obtain ⟨g, stack', hg, hstack, rfl⟩ := Except.seq_eq_ok.1 h
    obtain ⟨locals', hlocals, rfl⟩ := Except.map_eq_ok.1 hg
    have hlength := (FreshLocal.mapM_eq_ok.1 hlocals).length_eq
    have hlength' := (FreshLocal.mapM_eq_ok.1 hstack).length_eq
    exact ⟨hlength ▸ hf.1, hlength' ▸ hf.2⟩

theorem resolveFrames_eq_ok (hp : pool.Stored) {frames : List StackMapFrame}
    (hframes : ∀ f ∈ frames, f.frame.Fits) {fs : List (Nat × Frame String UInt16)}
    (h : resolveFrames pool frames = .ok fs) : ∀ x ∈ fs, x.2.ShortNames ∧ x.2.Fits := by
  intro x hx
  obtain ⟨y, hy, hyx⟩ := mem_of_mapM h hx
  obtain ⟨f, hf, rfl⟩ := Except.map_eq_ok.1 hyx
  refine ⟨shortNames_of_mapM hp hf, fits_of_mapM ?_ hf⟩
  have hmem : y.2 ∈ (StackMapFrame.withOffsets
      (frames.map fun f => (f.distance, f.frame))).map Prod.snd := List.mem_map_of_mem hy
  rw [StackMapFrame.withOffsets, StackMapFrame.map_snd_withOffsetsOnto, List.map_map] at hmem
  obtain ⟨stored, hstored, heq⟩ := List.mem_map.1 hmem
  rw [← heq]
  exact hframes stored hstored

/-- What an attribute is read as, by its name. -/
inductive Of (pool : ConstantPool) (a : Attribute) : String → CodePart → Prop
  | frames {table : List StackMapFrame} {fs : List (Nat × Frame String UInt16)}
      (htable : StackMapFrame.readTable a.body = .ok table)
      (hframes : resolveFrames pool table = .ok fs) : Of pool a StackMapFrame.tableName (.frames fs)
  | lines {ls : List LineNumber} (htable : LineNumber.readTable a.body = .ok ls) :
      Of pool a LineNumber.tableName (.lines ls)
  | locals {isGeneric : Bool} {vs : List VariableEntry}
      (htable : VariableEntry.readTable isGeneric a.body = .ok vs) :
      Of pool a (VariableEntry.tableName isGeneric) (.locals isGeneric vs)
  | annotations {visible : Bool} {as : List (AnnotatedType UInt16)}
      (htable : AnnotatedType.readTable visible a.body = .ok as) :
      Of pool a (AnnotatedType.tableName visible) (.annotations as)
  | other {name : String} (hname : name ∉ tableNames) : Of pool a name (.other a)

theorem read_cases (h : read pool a = .ok part) :
    ∃ name, pool.utf8 a.name = .ok name ∧ Of pool a name part := by
  obtain ⟨name, hname, h⟩ := Except.bind_eq_ok.1 h
  refine ⟨name, hname, ?_⟩
  split at h
  · rename_i hn
    obtain ⟨table, htable, h⟩ := Except.bind_eq_ok.1 h
    obtain ⟨fs, hfs, rfl⟩ := Except.map_eq_ok.1 h
    exact hn ▸ .frames htable hfs
  · split at h
    · rename_i hn
      obtain ⟨ls, hls, rfl⟩ := Except.map_eq_ok.1 h
      exact hn ▸ .lines hls
    · split at h
      · rename_i hn
        obtain ⟨vs, hvs, rfl⟩ := Except.map_eq_ok.1 h
        exact hn ▸ .locals hvs
      · split at h
        · rename_i hn
          obtain ⟨vs, hvs, rfl⟩ := Except.map_eq_ok.1 h
          exact hn ▸ .locals hvs
        · split at h
          · rename_i hn
            obtain ⟨as, has, rfl⟩ := Except.map_eq_ok.1 h
            exact hn ▸ .annotations has
          · split at h
            · rename_i hn
              obtain ⟨as, has, rfl⟩ := Except.map_eq_ok.1 h
              exact hn ▸ .annotations has
            · cases h
              refine .other ?_
              simp only [tableNames, List.mem_cons, List.not_mem_nil]
              tauto

/-- **What an attribute of a body holds.** -/
theorem read_eq_ok (hp : pool.Stored) (ha : a.Fits) (h : read pool a = .ok part) :
    ∃ name, pool.utf8 a.name = .ok name ∧ part.Sound name ∧ ∀ x ∈ part.other?, x = a := by
  obtain ⟨name, hname, hof⟩ := read_cases h
  refine ⟨name, hname, ?_⟩
  cases hof with
  | frames htable hframes =>
    have hfits := (Reader.ensures_counted StackMapFrame.ensures_fits).of_whole htable
    exact ⟨⟨rfl, resolveFrames_eq_ok hp hfits.2 hframes⟩, by simp [other?]⟩
  | lines htable | locals htable => exact ⟨rfl, by simp [other?]⟩
  | annotations htable =>
    have hfits := (Reader.ensures_counted (AnnotatedType.ensures_fits _)).of_whole htable
    exact ⟨⟨_, rfl, hfits.2⟩, by simp [other?]⟩
  | other hother => exact ⟨⟨hother, ha⟩, by simp [other?]⟩

/-- Only an attribute that is none of the tables is kept as it is. -/
theorem Sound.length_other? {name : String} (h : part.Sound name) :
    part.other?.length = if name ∉ tableNames then 1 else 0 := by
  cases part with
  | frames fs => rw [h.1]; rfl
  | lines ls => rw [show name = _ from h]; rfl
  | locals isGeneric vs => rw [show name = _ from h]; cases isGeneric <;> rfl
  | annotations as =>
    obtain ⟨visible, rfl, -⟩ := h
    cases visible <;> rfl
  | other a => rw [if_pos h.1]; rfl

theorem length_others {names : List String} {parts : List CodePart}
    (h : List.Forall₂ (fun name part => part.Sound name) names parts) :
    (parts.flatMap other?).length = (names.filter (· ∉ tableNames)).length := by
  induction h with
  | nil => rfl
  | @cons name part names parts hpart _ ih =>
    rw [List.flatMap_cons, List.length_append, ih, hpart.length_other?, List.filter_cons]
    by_cases hname : name ∈ tableNames
    · simp [hname]
    · simp [hname, Nat.add_comm]

/-- What a part lists is from the attribute for the table it is in. -/
theorem Sound.table {name : String} {part : CodePart} (h : part.Sound name) :
    (∀ x ∈ part.frames?, StackMapFrame.tableName = name) ∧
      (∀ x ∈ part.lines?, LineNumber.tableName = name) ∧
      (∀ generic, ∀ x ∈ part.locals? generic, VariableEntry.tableName generic = name) ∧
      ∀ a ∈ part.annotations?, AnnotatedType.tableName a.visible = name := by
  cases part with
  | frames fs => exact ⟨fun _ _ => h.1.symm, nofun, fun _ => nofun, nofun⟩
  | lines ls => exact ⟨nofun, fun _ _ => h.symm, fun _ => nofun, nofun⟩
  | locals isGeneric vs =>
    refine ⟨nofun, nofun, fun generic x hx => ?_, nofun⟩
    rw [locals?] at hx
    split at hx
    · rename_i hsame
      rw [← hsame]
      exact h.symm
    · cases hx
  | annotations as =>
    obtain ⟨visible, rfl, hall⟩ := h
    exact ⟨nofun, nofun, fun _ => nofun, fun a ha => by rw [(hall a ha).2]⟩
  | other a => exact ⟨nofun, nofun, fun _ => nofun, nofun⟩

/-- **There are not more attributes** than those that the parts are from: each table has at least
one. -/
theorem count_le {names present : List String} {parts : List CodePart}
    (h : List.Forall₂ (fun name part => part.Sound name) names parts)
    (hpresent : ∀ name ∈ present, name ∈ names) :
    (tableNames.filter (· ∈ present)).length + (parts.flatMap other?).length ≤ names.length := by
  have htables : (tableNames.filter (· ∈ present)).length ≤
      (names.filter (· ∈ tableNames)).length := by
    have hnodup : (tableNames.filter (· ∈ present)).Nodup :=
      List.Nodup.filter _ (by decide)
    refine (List.subperm_of_subset hnodup fun name hname => ?_).length_le
    rw [List.mem_filter, decide_eq_true_eq] at hname ⊢
    exact ⟨hpresent name hname.2, hname.1⟩
  have hsplit := List.length_eq_length_filter_add (l := names)
    fun name => decide (name ∈ tableNames)
  have hnot : (names.filter fun name => !decide (name ∈ tableNames)) =
      names.filter (· ∉ tableNames) := by
    refine List.filter_congr fun name _ => ?_
    rw [decide_not]
  rw [hnot] at hsplit
  rw [length_others h]
  omega

end CodePart

namespace Body

variable {b : Body} {stored : Bytes}

/-- The names of the tables that the entries of a body are from. -/
def tables (b : Body) : List String :=
  b.frames.map (fun _ => StackMapFrame.tableName) ++ b.lines.map (fun _ => LineNumber.tableName) ++
    b.locals.map (fun _ => VariableEntry.tableName false) ++
    b.genericLocals.map (fun _ => VariableEntry.tableName true) ++
    b.annotations.map (AnnotatedType.tableName ·.visible)

/-- A body that the reader lets pass. -/
structure Readable (pool : ConstantPool) (b : Body) : Prop where
  sound : b.Sound
  operations : ∀ x ∈ b.operations, x.2.Fits ∧ ∀ t ∈ x.2.targets, t ∈ b.starts
  frames : ∀ x ∈ b.frames, x.2.ShortNames ∧ x.2.Fits
  handlers : ∀ h ∈ b.handlers, h.Fits
  annotations : ∀ a ∈ b.annotations, a.Fits
  attributes : ∀ a ∈ b.attributes, a.Fits ∧ pool.NamesOther a
  count : (CodePart.tableNames.filter (· ∈ b.tables)).length + b.attributes.length ≤ 65535

/-- **A body that was read** has its positions at instructions or at the end. -/
theorem sound_of_read (h : read pool stored = .ok b) : b.Sound := by
  obtain ⟨c, hc, h⟩ := Except.bind_eq_ok.1 h
  obtain ⟨b', hb, h⟩ := Except.bind_eq_ok.1 h
  obtain ⟨operations, hoperations, hb⟩ := Except.bind_eq_ok.1 hb
  obtain ⟨parts, hparts, hb⟩ := Except.bind_eq_ok.1 hb
  obtain ⟨hascending, hinside, -⟩ := disassemble_eq_ok hoperations
  dsimp only at h
  split at h
  · cases h
  rename_i hfind
  cases h
  cases hb
  refine ⟨hascending, fun o ho => ?_, fun o ho => ?_⟩
  · obtain ⟨x, hx, rfl⟩ := List.mem_map.1 ho
    exact (hinside x hx).1
  · have hfound := List.find?_eq_none.1 hfind o (mem_labelled.2 ho)
    simp only [Bool.and_eq_true, bne_iff_ne, Bool.not_eq_true', not_and,
      Bool.not_eq_false] at hfound
    by_cases hlength : o = c.code.length
    · exact .inr hlength
    · exact .inl ((hasStart_iff hascending).1 (hfound hlength))

/-- The body that was read is that in the attribute. -/
theorem ofAttribute_of_read (h : read pool stored = .ok b) :
    ∃ c, CodeAttribute.read stored = .ok c ∧ ofAttribute pool c = .ok b := by
  obtain ⟨c, hc, h⟩ := Except.bind_eq_ok.1 h
  obtain ⟨b', hb, h⟩ := Except.bind_eq_ok.1 h
  dsimp only at h
  split at h
  · cases h
  · cases h
    exact ⟨c, hc, hb⟩

/-- A body whose positions are right is read. -/
theorem read_eq_ok {c : CodeAttribute} (hc : CodeAttribute.read stored = .ok c)
    (hb : ofAttribute pool c = .ok b) (hsound : b.Sound) : read pool stored = .ok b := by
  have hfind : b.labelled.find? (fun o => o != b.length &&
      !hasStart (startOffsets b.operations) o) = none := by
    rw [List.find?_eq_none]
    intro o ho
    obtain hmem | rfl := hsound.references o (mem_labelled.1 ho)
    · have hstart : hasStart (startOffsets b.operations) o = true :=
        (hasStart_iff hsound.ascending).2 hmem
      rw [hstart]
      simp
    · simp
  refine Except.bind_eq_ok.2 ⟨c, hc, Except.bind_eq_ok.2 ⟨b, hb, ?_⟩⟩
  dsimp only
  rw [hfind]
  rfl

/-- **Each table of a body** has an attribute with its name. -/
theorem attribute_of_table (hp : pool.Stored) {c : CodeAttribute}
    (hfits : ∀ a ∈ c.attributes, a.Fits) (hb : ofAttribute pool c = .ok b) :
    ∀ name ∈ b.tables, ∃ a ∈ c.attributes, pool.utf8 a.name = .ok name := by
  obtain ⟨operations, -, hb⟩ := Except.bind_eq_ok.1 hb
  obtain ⟨parts, hparts, hb⟩ := Except.bind_eq_ok.1 hb
  cases hb
  intro name hname
  simp only [tables, List.mem_append, List.mem_map, List.mem_flatMap] at hname
  rcases hname with (((⟨x, ⟨part, hpart, hx⟩, rfl⟩ | ⟨x, ⟨part, hpart, hx⟩, rfl⟩) |
    ⟨x, ⟨part, hpart, hx⟩, rfl⟩) | ⟨x, ⟨part, hpart, hx⟩, rfl⟩) | ⟨x, ⟨part, hpart, hx⟩, rfl⟩
  all_goals
    obtain ⟨a, ha, hread⟩ := mem_of_mapM hparts hpart
    obtain ⟨name, hname, hsound, -⟩ := CodePart.read_eq_ok hp (hfits a ha) hread
    obtain ⟨hframes, hlines, hlocals, hannotations⟩ := hsound.table
  · exact ⟨a, ha, (hframes x hx).symm ▸ hname⟩
  · exact ⟨a, ha, (hlines x hx).symm ▸ hname⟩
  · exact ⟨a, ha, (hlocals false x hx).symm ▸ hname⟩
  · exact ⟨a, ha, (hlocals true x hx).symm ▸ hname⟩
  · exact ⟨a, ha, (hannotations x hx).symm ▸ hname⟩

/-- **Each class that a frame of a body names** is one of the pool. -/
theorem className_of_frames {c : CodeAttribute} (hb : ofAttribute pool c = .ok b) :
    ∀ x ∈ b.frames, ∀ name, .object name ∈ x.2.types → ∃ i, pool.className i = .ok name := by
  obtain ⟨operations, -, hb⟩ := Except.bind_eq_ok.1 hb
  obtain ⟨parts, hparts, hb⟩ := Except.bind_eq_ok.1 hb
  cases hb
  intro x hx name hname
  obtain ⟨part, hpart, hx⟩ := List.mem_flatMap.1 hx
  obtain ⟨a, -, hread⟩ := mem_of_mapM hparts hpart
  obtain ⟨table, -, hof⟩ := CodePart.read_cases hread
  cases hof with
  | frames htable hframes =>
    obtain ⟨y, -, hyx⟩ := mem_of_mapM hframes hx
    obtain ⟨f, hf, rfl⟩ := Except.map_eq_ok.1 hyx
    exact CodePart.className_of_mapM hf name hname
  | _ => cases hx

/-- **A body that was read** is one that the reader lets pass. -/
theorem readable_of_read (hp : pool.Stored) (h : read pool stored = .ok b) : b.Readable pool := by
  have hsound := sound_of_read h
  obtain ⟨c, hc, hb⟩ := ofAttribute_of_read h
  have hfits := CodeAttribute.fits_of_read hc
  have htables := attribute_of_table hp hfits.attributes.2 hb
  obtain ⟨operations, hoperations, hb⟩ := Except.bind_eq_ok.1 hb
  obtain ⟨parts, hparts, hb⟩ := Except.bind_eq_ok.1 hb
  obtain ⟨-, hinside, htargets⟩ := disassemble_eq_ok hoperations
  cases hb
  -- each part is from an attribute, and what it lists is what its name allows
  have hpart : ∀ part ∈ parts, ∃ a ∈ c.attributes, ∃ name, pool.utf8 a.name = .ok name ∧
      part.Sound name ∧ ∀ x ∈ part.other?, x = a := by
    intro part hpart
    obtain ⟨a, ha, hread⟩ := mem_of_mapM hparts hpart
    exact ⟨a, ha, CodePart.read_eq_ok hp (hfits.attributes.2 a ha) hread⟩
  refine ⟨hsound, ?_, ?_, hfits.handlers.2, ?_, ?_, ?_⟩
  · exact fun x hx => ⟨(hinside x hx).2, htargets x hx⟩
  · intro x hx
    obtain ⟨part, hmem, hx⟩ := List.mem_flatMap.1 hx
    obtain ⟨-, -, name, -, hsound, -⟩ := hpart part hmem
    cases part with
    | frames fs => exact hsound.2 x hx
    | _ => cases hx
  · intro x hx
    obtain ⟨part, hmem, hx⟩ := List.mem_flatMap.1 hx
    obtain ⟨-, -, name, -, hsound, -⟩ := hpart part hmem
    cases part with
    | annotations as =>
      obtain ⟨visible, -, hall⟩ := hsound
      exact (hall x hx).1
    | _ => cases hx
  · intro x hx
    obtain ⟨part, hmem, hx⟩ := List.mem_flatMap.1 hx
    obtain ⟨a, -, name, hname, hsound, hother⟩ := hpart part hmem
    obtain rfl := hother x hx
    cases part with
    | other a =>
      obtain rfl := List.mem_singleton.1 hx
      exact ⟨hsound.2, name, hname, hsound.1⟩
    | _ => cases hx
  · have hnames : List.Forall₂ (fun name part => CodePart.Sound name part)
        (c.attributes.map fun a => (pool.utf8 a.name).toOption.getD "") parts := by
      rw [List.forall₂_map_left_iff]
      refine List.Forall₂.imp ?_
        ((List.forall₂_and_left c.attributes parts).2 ⟨hfits.attributes.2, mapM_eq_ok.1 hparts⟩)
      rintro a part ⟨ha, hread⟩
      obtain ⟨name, hname, hsound, -⟩ := CodePart.read_eq_ok hp ha hread
      rw [hname]
      exact hsound
    refine (CodePart.count_le hnames fun name hname => ?_).trans
      ((List.length_map _).trans_le hfits.attributes.1)
    obtain ⟨a, ha, hname⟩ := htables name hname
    refine List.mem_map.2 ⟨a, ha, ?_⟩
    rw [hname]
    rfl

/-- Places are in the order of offsets. -/
theorem Sound.place_le (hb : b.Sound) {o o' : Nat} (ho : o ∈ b.references) (hle : o ≤ o') :
    b.place o ≤ b.place o' := by
  refine idxOf_le_idxOf hb.ascending hle ((hb.references o ho).imp_right ?_)
  rintro rfl
  exact hb.inside

theorem place_lt {o : Nat} (ho : o ∈ b.starts) : b.place o < b.operations.length := by
  have hlt : b.starts.idxOf o < b.starts.length := List.idxOf_lt_length_iff.2 ho
  rwa [starts, List.length_map] at hlt

section Events

variable {place : Label → Option Nat} {attached : List Attached}

/-- **Each event of a body that was read** can be stored. -/
theorem Readable.storable (hb : b.Readable pool)
    (hops : b.operations = attached.map fun x => (x.1, x.2.1))
    (hframes : b.frames = attached.flatMap fun x => x.2.2.map (x.1, ·))
    (hplace : ∀ o ∈ b.references, place (b.label o) = some (b.place o)) {x : Nat × BodyEvent}
    (hx : x ∈ BodyEvent.numbered 0 (b.eventsWith attached)) :
    x.2.Storable pool b.operations.length place x.1 := by
  have hstarts := map_fst_attached hops
  have hsome : ∀ o ∈ b.references, (place (b.label o)).isSome := fun o ho => by
    rw [hplace o ho]; rfl
  -- an event is sent in front of the operations, at one of them, or behind all of them
  rw [numbered_events (by rw [hstarts]; exact hb.sound.ascending.imp Nat.ne_of_lt), hstarts,
    List.mem_append, List.mem_append] at hx
  rcases hx with (hx | hx) | hx
  · obtain ⟨e, he, rfl⟩ := List.mem_map.1 hx
    rw [firstEvents_eq] at he
    obtain rfl | he := List.mem_cons.1 he
    · trivial
    · obtain ⟨h, hh, rfl⟩ := List.mem_map.1 he
      refine ⟨hb.handlers h hh, fun l hl => ?_⟩
      rw [Handler.positions_map] at hl
      obtain ⟨o, ho, rfl⟩ := List.mem_map.1 hl
      exact hsome _ (handler_mem hh ho)
  · obtain ⟨y, hy, hx⟩ := List.mem_flatMap.1 hx
    obtain ⟨e, he, rfl⟩ := List.mem_map.1 hx
    have hstart : y.1 ∈ b.starts := by
      rw [← hstarts]; exact List.mem_map_of_mem hy
    have hlt : b.starts.idxOf y.1 < b.operations.length := place_lt hstart
    rcases mem_eventsAt he with rfl | ⟨line, hline, hyl, rfl⟩ | ⟨f, hf, rfl⟩ | rfl
    · trivial
    · exact ⟨hlt, hplace _ (hyl ▸ line_mem hline)⟩
    · have hmem := mem_frames_attached hframes hy hf
      refine ⟨hlt, Frame.shortNames_map (hb.frames _ hmem).1, fun l hl => ?_⟩
      rw [Frame.positions_map] at hl
      obtain ⟨o, ho, rfl⟩ := List.mem_map.1 hl
      exact hsome _ ((frame_mem hmem).2 o ho)
    · have hmem := mem_operations_attached hops hy
      obtain ⟨hfits, htargets⟩ := hb.operations _ hmem
      refine ⟨(Operation.fits_map _ _).2 hfits, fun l hl => ?_⟩
      rw [Operation.targets_map] at hl
      obtain ⟨t, ht, rfl⟩ := List.mem_map.1 hl
      exact ⟨b.place t, place_lt (htargets t ht), hplace t (target_mem hmem ht)⟩
  · obtain ⟨e, he, rfl⟩ := List.mem_map.1 hx
    have hlocal : ∀ v ∈ b.locals ++ b.genericLocals, ∀ g, BodyEvent.Storable pool
        b.operations.length place attached.length (.localVariable g (localVariable b.label v)) := by
      intro v hv g
      obtain ⟨hstart, hstop⟩ := local_mem hv
      exact ⟨hsome _ hstart, hsome _ hstop⟩
    rw [lastEvents_eq] at he
    simp only [List.mem_append, List.mem_map, List.mem_singleton] at he
    rcases he with ((((he | ⟨v, hv, rfl⟩) | ⟨v, hv, rfl⟩) | ⟨a, ha, rfl⟩) | ⟨a, ha, rfl⟩) | rfl
    · split at he
      · rw [List.mem_singleton.1 he]; trivial
      · cases he
    · exact hlocal v (List.mem_append_left _ hv) false
    · exact hlocal v (List.mem_append_right _ hv) true
    · refine ⟨?_, fun l hl => ?_⟩
      · rw [AnnotatedType.map_map]
        refine AnnotatedType.fits_map (fun x hx y hy hle => ?_) (hb.annotations a ha)
        rw [hplace _ (annotation_mem ha hx), hplace _ (annotation_mem ha hy)]
        exact hb.sound.place_le (annotation_mem ha hx) (UInt16.le_iff_toNat_le.1 hle)
      · rw [AnnotatedType.positions_map] at hl
        obtain ⟨o, ho, rfl⟩ := List.mem_map.1 hl
        exact hsome _ (annotation_mem ha ho)
    · exact hb.attributes a ha
    · trivial

/-- Each table that an event belongs to is one that the body has entries of. -/
theorem tables_events (hframes : b.frames = attached.flatMap fun x => x.2.2.map (x.1, ·))
    {name : String} (h : name ∈ (b.eventsWith attached).filterMap BodyEvent.table?) :
    name ∈ b.tables := by
  rw [filterMap_events fun _ => rfl] at h
  simp only [BodyEvent.table?, List.mem_append, List.mem_filterMap, List.mem_flatMap,
    Option.some.injEq, Option.toList_none, List.not_mem_nil, reduceCtorEq, and_false, exists_false,
    or_false, false_or] at h
  simp only [tables, List.mem_append, List.mem_map]
  rcases h with ⟨x, hx, ⟨l, hl, rfl⟩ | ⟨f, hf, rfl⟩⟩ | (⟨v, hv, rfl⟩ | ⟨v, hv, rfl⟩) | ⟨a, ha, rfl⟩
  · exact .inl (.inl (.inl (.inr ⟨l, (List.mem_filter.1 hl).1, rfl⟩)))
  · have hmem := mem_frames_attached hframes hx hf
    exact .inl (.inl (.inl (.inl ⟨_, hmem, rfl⟩)))
  · exact .inl (.inl (.inr ⟨v, hv, rfl⟩))
  · exact .inl (.inr ⟨v, hv, rfl⟩)
  · exact .inr ⟨a, ha, rfl⟩

end Events

/-- **The events of a body that was read** can be stored. -/
theorem Readable.storableAll (hb : b.Readable pool) (h : b.events.2 = none) :
    BodyEvent.StorableAll pool b.events.1 := by
  obtain ⟨attached, hops, hframes, hevents⟩ := events_eq_of_none h
  have hplaceOf := fun o (ho : o ∈ b.references) => placeOf_label hb.sound h ho
  rw [hevents] at hplaceOf ⊢
  refine ⟨fun x hx => ?_, ?_, ?_⟩
  · have hlength : (BodyEvent.operations (b.eventsWith attached)).length =
        b.operations.length := by
      rw [operations_events, hops, List.length_map, List.length_map]
    rw [hlength]
    exact hb.storable hops hframes hplaceOf hx
  · refine le_trans (Nat.add_le_add ?_ (Nat.le_of_eq ?_)) hb.count
    · refine (List.monotone_filter_right _ fun name hname => ?_).length_le
      rw [decide_eq_true_eq] at hname ⊢
      exact tables_events hframes hname
    · rw [attributes_events]
  · rw [limits_events]
    exact List.cons_ne_nil _ _

end Body

end FreshLocal
