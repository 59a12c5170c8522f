import FreshLocal.Proofs.ProperBody

/-!
# What the events of a body leave out

A body is sent with every entry of every table in it, whatever the order of the
tables, how often one is there, and where its entries stand. There is one
exception. A line is sent in front of the instruction at its offset, and the end
of the code is no instruction: a line that starts there gets its label, but is
not sent. A frame at the end is a fault.

* `Body.From`: a body holds the entries of the tables in its attribute.
* `Body.Told`: what some events say of a body.
* `Body.told_events`: **the events of a body that was read** say all of it but the lines at the end.
-/

namespace FreshLocal

variable {pool : ConstantPool} {c : CodeAttribute} {b : Body} {stored : Bytes}

/-! ## What is in the attribute -/

namespace CodeAttribute

variable {α : Type}

/-- The attributes of a body with a name, in their order. -/
def named (pool : ConstantPool) (c : CodeAttribute) (name : String) : List Attribute :=
  c.attributes.filter fun a => (pool.utf8 a.name).toOption = some name

/-- Are these the entries of all tables with a name, one table after the other? -/
def Tables (pool : ConstantPool) (c : CodeAttribute) (name : String)
    (read : Bytes → Except DecodeFault (List α)) (entries : List α) : Prop :=
  ∃ tables, (c.named pool name).mapM (fun a => read a.body) = .ok tables ∧ entries = tables.flatten

/-- **What is picked from the parts of a body** is what the tables with one name hold, if it is
from them only. -/
theorem tables_of_mapM {parts : List CodePart} {name : String} {pick : CodePart → List α}
    {read : Bytes → Except DecodeFault (List α)}
    (hparts : c.attributes.mapM (CodePart.read pool) = .ok parts)
    (hpick : ∀ a found part, CodePart.Of pool a found part →
      (found = name ∧ read a.body = .ok (pick part)) ∨ (found ≠ name ∧ pick part = [])) :
    c.Tables pool name read (parts.flatMap pick) := by
  have key : ∀ (attributes : List Attribute) (parts : List CodePart),
      List.Forall₂ (fun a part => CodePart.read pool a = .ok part) attributes parts →
      ∃ tables, (attributes.filter fun a => (pool.utf8 a.name).toOption = some name).mapM
        (fun a => read a.body) = .ok tables ∧ parts.flatMap pick = tables.flatten := by
    intro attributes parts h
    induction h with
    | nil => exact ⟨[], rfl, rfl⟩
    | @cons a part rest parts hpart _ ih =>
      obtain ⟨tables, htables, hentries⟩ := ih
      obtain ⟨found, hname, hof⟩ := CodePart.read_cases hpart
      have htest : (pool.utf8 a.name).toOption = some name ↔ found = name := by
        simp [hname, Except.toOption]
      rw [List.flatMap_cons, List.filter_cons]
      obtain ⟨hfound, hread⟩ | ⟨hfound, hnone⟩ := hpick a found part hof
      · rw [if_pos (by simpa using htest.2 hfound)]
        refine ⟨pick part :: tables, ?_, by rw [hentries, List.flatten_cons]⟩
        exact mapM_eq_ok.2 (.cons hread (mapM_eq_ok.1 htables))
      · rw [if_neg (by simpa using fun h => hfound (htest.1 h)), hnone, List.nil_append]
        exact ⟨tables, htables, hentries⟩
  exact key c.attributes parts (mapM_eq_ok.1 hparts)

end CodeAttribute

namespace Body

/-- A body holds the entries of the tables in its attribute, and the attributes that are none of
the tables. -/
structure From (pool : ConstantPool) (c : CodeAttribute) (b : Body) : Prop where
  length : b.length = c.code.length
  limits : (b.maxStack, b.maxLocals) = (c.maxStack, c.maxLocals)
  operations : disassemble c.code = .ok b.operations
  handlers : b.handlers = c.handlers
  frames : c.Tables pool StackMapFrame.tableName
    (fun body => StackMapFrame.readTable body >>= CodePart.resolveFrames pool) b.frames
  lines : c.Tables pool LineNumber.tableName LineNumber.readTable b.lines
  locals : c.Tables pool (VariableEntry.tableName false) (VariableEntry.readTable false) b.locals
  genericLocals :
    c.Tables pool (VariableEntry.tableName true) (VariableEntry.readTable true) b.genericLocals
  annotations (visible : Bool) : c.Tables pool (AnnotatedType.tableName visible)
    (AnnotatedType.readTable visible) (b.annotations.filter (·.visible = visible))
  attributes : b.attributes =
    c.attributes.filter fun a => ∀ name ∈ CodePart.tableNames,
      (pool.utf8 a.name).toOption ≠ some name

/-- The annotations of a part with the given visibility. -/
theorem filter_visible {a : Attribute} {visible : Bool} {as : List (AnnotatedType UInt16)}
    (h : AnnotatedType.readTable visible a.body = .ok as) (wanted : Bool) :
    as.filter (·.visible = wanted) = if visible = wanted then as else [] := by
  have hall := ((Reader.ensures_counted (AnnotatedType.ensures_fits visible)).of_whole h).2
  split
  · rename_i heq
    refine List.filter_eq_self.2 fun x hx => ?_
    simpa [heq] using (hall x hx).2
  · rename_i hne
    refine List.filter_eq_nil_iff.2 fun x hx => ?_
    simpa [(hall x hx).2] using hne

theorem other_ne {found name : String} (h : found ∉ CodePart.tableNames)
    (hname : name ∈ CodePart.tableNames) : found ≠ name := fun heq => h (heq ▸ hname)

theorem frames_of_mapM {parts : List CodePart}
    (hparts : c.attributes.mapM (CodePart.read pool) = .ok parts) :
    c.Tables pool StackMapFrame.tableName
      (fun body => StackMapFrame.readTable body >>= CodePart.resolveFrames pool)
      (parts.flatMap CodePart.frames?) := by
  refine CodeAttribute.tables_of_mapM hparts fun a found part h => ?_
  cases h with
  | frames htable hframes => exact .inl ⟨rfl, Except.bind_eq_ok.2 ⟨_, htable, hframes⟩⟩
  | lines => exact .inr ⟨by decide, rfl⟩
  | @locals generic => exact .inr ⟨by cases generic <;> decide, rfl⟩
  | @annotations visible => exact .inr ⟨by cases visible <;> decide, rfl⟩
  | other hname => exact .inr ⟨other_ne hname (by decide), rfl⟩

theorem lines_of_mapM {parts : List CodePart}
    (hparts : c.attributes.mapM (CodePart.read pool) = .ok parts) :
    c.Tables pool LineNumber.tableName LineNumber.readTable (parts.flatMap CodePart.lines?) := by
  refine CodeAttribute.tables_of_mapM hparts fun a found part h => ?_
  cases h with
  | frames => exact .inr ⟨by decide, rfl⟩
  | lines htable => exact .inl ⟨rfl, htable⟩
  | @locals generic => exact .inr ⟨by cases generic <;> decide, rfl⟩
  | @annotations visible => exact .inr ⟨by cases visible <;> decide, rfl⟩
  | other hname => exact .inr ⟨other_ne hname (by decide), rfl⟩

theorem locals_of_mapM (generic : Bool) {parts : List CodePart}
    (hparts : c.attributes.mapM (CodePart.read pool) = .ok parts) :
    c.Tables pool (VariableEntry.tableName generic) (VariableEntry.readTable generic)
      (parts.flatMap (CodePart.locals? generic)) := by
  refine CodeAttribute.tables_of_mapM hparts fun a found part h => ?_
  cases h with
  | frames | lines => exact .inr ⟨by cases generic <;> decide, rfl⟩
  | @locals isGeneric vs htable =>
    by_cases hgeneric : isGeneric = generic
    · subst hgeneric
      exact .inl ⟨rfl, by rw [CodePart.locals?, if_pos rfl]; exact htable⟩
    · refine .inr ⟨?_, by rw [CodePart.locals?, if_neg hgeneric]⟩
      cases isGeneric <;> cases generic <;> first | decide | contradiction
  | @annotations visible => exact .inr ⟨by cases visible <;> cases generic <;> decide, rfl⟩
  | other hname => exact .inr ⟨other_ne hname (by cases generic <;> decide), rfl⟩

theorem annotations_of_mapM (visible : Bool) {parts : List CodePart}
    (hparts : c.attributes.mapM (CodePart.read pool) = .ok parts) :
    c.Tables pool (AnnotatedType.tableName visible) (AnnotatedType.readTable visible)
      (parts.flatMap fun part => part.annotations?.filter (·.visible = visible)) := by
  refine CodeAttribute.tables_of_mapM hparts fun a found part h => ?_
  cases h with
  | frames | lines => exact .inr ⟨by cases visible <;> decide, rfl⟩
  | @locals generic => exact .inr ⟨by cases generic <;> cases visible <;> decide, rfl⟩
  | @annotations seen as htable =>
    rw [CodePart.annotations?, filter_visible htable]
    by_cases hseen : seen = visible
    · subst hseen
      exact .inl ⟨rfl, by rw [if_pos rfl]; exact htable⟩
    · refine .inr ⟨?_, if_neg hseen⟩
      cases seen <;> cases visible <;> first | decide | contradiction
  | other hname => exact .inr ⟨other_ne hname (by cases visible <;> decide), rfl⟩

/-- The attributes that are none of the tables are kept as they are. -/
theorem others_of_mapM {parts : List CodePart}
    (hparts : c.attributes.mapM (CodePart.read pool) = .ok parts) :
    parts.flatMap CodePart.other? = c.attributes.filter fun a =>
      ∀ name ∈ CodePart.tableNames, (pool.utf8 a.name).toOption ≠ some name := by
  have hforall := mapM_eq_ok.1 hparts
  clear hparts
  generalize c.attributes = attributes at hforall
  induction hforall with
  | nil => rfl
  | @cons a part rest parts hpart _ ih =>
    obtain ⟨found, hname, hof⟩ := CodePart.read_cases hpart
    have htest : (∀ name ∈ CodePart.tableNames, (pool.utf8 a.name).toOption ≠ some name) ↔
        found ∉ CodePart.tableNames := by
      rw [hname]
      constructor
      · intro h hmem; exact h found hmem rfl
      · rintro h name hmem ⟨⟩; exact h hmem
    rw [List.flatMap_cons, List.filter_cons, ih]
    cases hof with
    | other hother => rw [if_pos (by simpa using htest.2 hother)]; rfl
    | frames | lines =>
      rw [if_neg (by simpa only [decide_eq_true_eq, htest, not_not] using by decide)]; rfl
    | @locals flag | @annotations flag =>
      rw [if_neg (by
        simpa only [decide_eq_true_eq, htest, not_not] using by cases flag <;> decide)]; rfl

/-- **A stored body** with the content of its attributes. -/
theorem from_of_ofAttribute (h : ofAttribute pool c = .ok b) : b.From pool c := by
  obtain ⟨operations, hoperations, h⟩ := Except.bind_eq_ok.1 h
  obtain ⟨parts, hparts, h⟩ := Except.bind_eq_ok.1 h
  cases h
  refine ⟨rfl, rfl, hoperations, rfl, frames_of_mapM hparts, lines_of_mapM hparts,
    locals_of_mapM false hparts, locals_of_mapM true hparts, fun visible => ?_,
    others_of_mapM hparts⟩
  dsimp only
  rw [List.filter_flatMap]
  exact annotations_of_mapM visible hparts

/-! ## What is sent of it -/

/-- Between each frame of some events and an operation are frames only. -/
def FramesAdjacent (events : List BodyEvent) : Prop :=
  ∀ front f behind, events = front ++ .frame f :: behind →
    ∃ (fs : List CodeFrame) (op : Operation Label) (rest : List BodyEvent),
      behind = fs.map .frame ++ .operation op :: rest

/-- What some events say of a body, with a label for each offset that it refers to. -/
structure Told (label : Nat → Label) (b : Body) (events : List BodyEvent) : Prop where
  /-- Each label is placed once, in front of the instruction at its offset or at the end. -/
  labels : events.filterMap BodyEvent.label? =
    ((b.starts ++ [b.length]).filter (· ∈ b.references)).map label
  placed : ∀ o ∈ b.references, ∃ n, BodyEvent.placeOf (label o) events = some n ∧
    (b.starts ++ [b.length])[n]? = some o
  operations : BodyEvent.operations events = b.operations.map (·.2.map label)
  handlers : events.filterMap BodyEvent.handler? = b.handlers.map (·.map fun o => label o.toNat)
  /-- Each frame stands behind as many operations as there are before its offset. -/
  frames : List.Forall₂ (fun x y => b.starts[y.1]? = some x.1 ∧
      y.2 = x.2.map id fun o => label o.toNat) b.frames
    ((BodyEvent.numbered 0 events).filterMap BodyEvent.frame?)
  adjacent : FramesAdjacent events
  /-- All lines are sent but those at the end. -/
  lines : (events.filterMap BodyEvent.line?).Perm
    ((b.lines.filter (·.start.toNat ≠ b.length)).map fun l => (l.line, label l.start.toNat))
  locals : events.filterMap (BodyEvent.local? false) = b.locals.map (localVariable label)
  genericLocals : events.filterMap (BodyEvent.local? true) =
    b.genericLocals.map (localVariable label)
  annotations : events.filterMap BodyEvent.annotation? =
    b.annotations.map (·.map fun o => label o.toNat)
  attributes : events.filterMap BodyEvent.attribute? = b.attributes
  limits : events.filterMap BodyEvent.limits? = [(b.maxStack, b.maxLocals)]

section Adjacent

theorem framesAdjacent_of_none {events : List BodyEvent} (h : ∀ f, .frame f ∉ events) :
    FramesAdjacent events := by
  rintro front f behind rfl
  exact absurd (by simp) (h f)

theorem FramesAdjacent.append {first second : List BodyEvent} (h : FramesAdjacent first)
    (h' : FramesAdjacent second) : FramesAdjacent (first ++ second) := by
  intro front f behind heq
  obtain ⟨middle, rfl, hsecond⟩ | ⟨middle, hfirst, hbehind⟩ := List.append_eq_append_iff.1 heq
  · exact h' middle f behind hsecond
  · rcases middle with _ | ⟨e, middle⟩
    · exact h' [] f behind hbehind.symm
    · obtain ⟨rfl, rfl⟩ := List.cons.inj hbehind
      obtain ⟨fs, op, rest, rfl⟩ := h front f middle hfirst
      exact ⟨fs, op, rest ++ second, by simp⟩

theorem framesAdjacent_frames (fs : List CodeFrame) (op : Operation Label) :
    FramesAdjacent (fs.map .frame ++ [.operation op]) := by
  induction fs with
  | nil => exact framesAdjacent_of_none (by simp)
  | cons g fs ih =>
    rintro (_ | ⟨e, front⟩) f behind heq
    · obtain ⟨-, rfl⟩ := List.cons.inj heq
      exact ⟨fs, op, [], rfl⟩
    · exact ih front f behind (List.cons.inj heq).2

theorem framesAdjacent_flatMap {α : Type} {xs : List α} {f : α → List BodyEvent}
    (h : ∀ x ∈ xs, FramesAdjacent (f x)) : FramesAdjacent (xs.flatMap f) := by
  induction xs with
  | nil => exact framesAdjacent_of_none (by simp)
  | cons x xs ih =>
    rw [List.flatMap_cons]
    exact (h x (by simp)).append (ih fun y hy => h y (by simp [hy]))

theorem framesAdjacent_eventsAt (x : Attached) : FramesAdjacent (b.eventsAt x) := by
  rw [eventsAt_eq, ← List.append_assoc, ← List.append_assoc, List.append_assoc _ (x.2.2.map _)]
  refine FramesAdjacent.append (framesAdjacent_of_none fun f => ?_) ?_
  · split <;> simp
  · have hframes := framesAdjacent_frames
      (x.2.2.map fun f => f.map id fun o => b.label o.toNat) (x.2.1.map b.label)
    rwa [List.map_map] at hframes

theorem framesAdjacent_events {attached : List Attached} :
    FramesAdjacent (b.eventsWith attached) := by
  refine FramesAdjacent.append (FramesAdjacent.append ?_ ?_) ?_
  · exact framesAdjacent_of_none fun f => by simp [firstEvents]
  · exact framesAdjacent_flatMap fun x _ => framesAdjacent_eventsAt x
  · exact framesAdjacent_of_none fun f => by simp [lastEvents]

end Adjacent

/-- Lines are sent instruction by instruction: those that are at one, in some order. -/
theorem perm_lines {attached : List Attached} (hsound : b.Sound)
    (hops : b.operations = attached.map fun x => (x.1, x.2.1)) :
    ((b.eventsWith attached).filterMap BodyEvent.line?).Perm
      ((b.lines.filter (·.start.toNat ∈ b.starts)).map
        fun l => (l.line, b.label l.start.toNat)) := by
  have hlines : (b.eventsWith attached).filterMap BodyEvent.line? =
      (b.starts.flatMap fun o => b.lines.filter (·.start.toNat = o)).map
        fun l => (l.line, b.label l.start.toNat) := by
    rw [lines_events, ← map_fst_attached hops, List.flatMap_map, List.map_flatMap]
    refine List.flatMap_congr fun x _ => List.map_congr_left fun l hl => ?_
    have hstart := (List.mem_filter.1 hl).2
    rw [decide_eq_true_eq] at hstart
    rw [hstart]
  have hnodup : b.starts.Nodup := hsound.ascending.imp Nat.ne_of_lt
  rw [hlines]
  exact (perm_flatMap_filter _ hnodup b.lines).map _

/-- Each frame is sent at the instruction whose offset it has. -/
theorem frames_at_starts {attached : List Attached} (hsound : b.Sound)
    (hops : b.operations = attached.map fun x => (x.1, x.2.1))
    (hframes : b.frames = attached.flatMap fun x => x.2.2.map (x.1, ·)) :
    (BodyEvent.numbered 0 (b.eventsWith attached)).filterMap BodyEvent.frame? =
        b.frames.map (fun x => (b.starts.idxOf x.1, x.2.map id fun o => b.label o.toNat)) ∧
      ∀ x ∈ b.frames, x.1 ∈ b.starts := by
  have hstarts := map_fst_attached hops
  have hnodup : b.starts.Nodup := hsound.ascending.imp Nat.ne_of_lt
  refine ⟨?_, fun x hx => ?_⟩
  · rw [frames_events (by rwa [hstarts]), hstarts, hframes, List.map_flatMap]
    refine List.flatMap_congr fun x _ => ?_
    rw [List.map_map]
    rfl
  · rw [hframes] at hx
    obtain ⟨y, hy, hx⟩ := List.mem_flatMap.1 hx
    obtain ⟨f, -, rfl⟩ := List.mem_map.1 hx
    rw [← hstarts]
    exact List.mem_map_of_mem hy

/-- **The events of a body that was read** say all of it but the lines at the end: each handler,
frame, variable, annotation and further attribute is sent once, and each line that starts at an
instruction. -/
theorem told_events (hread : read pool stored = .ok b) (h : b.events.2 = none) :
    ∃ c, CodeAttribute.read stored = .ok c ∧ b.From pool c ∧ b.Told b.label b.events.1 := by
  obtain ⟨c, hc, hb⟩ := ofAttribute_of_read hread
  have hsound := sound_of_read hread
  obtain ⟨attached, hops, hframes, hevents⟩ := events_eq_of_none h
  have hplaceOf := fun o (ho : o ∈ b.references) => placeOf_label hsound h ho
  -- the place of an instruction leads back to its offset
  have hidx : ∀ o ∈ b.starts, b.starts[b.starts.idxOf o]? = some o := fun o ho => by
    rw [List.getElem?_eq_getElem (List.idxOf_lt_length_iff.2 ho), List.getElem_idxOf]
  refine ⟨c, hc, from_of_ofAttribute hb, ?_⟩
  rw [hevents] at hplaceOf ⊢
  refine ⟨by rw [labels_events, map_fst_attached hops], fun o ho => ⟨_, hplaceOf o ho, ?_⟩, ?_,
    handlers_events, ?_, framesAdjacent_events, ?_, locals_events false, locals_events true,
    annotations_events, attributes_events, limits_events⟩
  · rw [place]
    obtain hstart | rfl := hsound.references o ho
    · rw [List.getElem?_append_left (List.idxOf_lt_length_iff.2 hstart)]
      exact hidx o hstart
    · have hend : b.length ∉ b.starts := fun hmem => absurd (hsound.inside _ hmem) (by omega)
      rw [List.idxOf_eq_length_iff.2 hend, List.getElem?_append_right le_rfl, Nat.sub_self]
      rfl
  · rw [operations_events, hops, List.map_map]
    rfl
  · obtain ⟨hsame, hmem⟩ := frames_at_starts hsound hops hframes
    rw [hsame, List.forall₂_map_right_iff, List.forall₂_same]
    exact fun x hx => ⟨hidx x.1 (hmem x hx), rfl⟩
  · -- the end is the only other offset of a line
    have hmem : b.lines.filter (·.start.toNat ∈ b.starts) =
        b.lines.filter (·.start.toNat ≠ b.length) := by
      refine List.filter_congr fun l hl => ?_
      rw [decide_eq_decide]
      constructor
      · intro hmem heq
        exact absurd (hsound.inside _ hmem) (by omega)
      · exact (hsound.references _ (line_mem hl)).resolve_right
    rw [← hmem]
    exact perm_lines hsound hops

/-! ### A line at the end -/

/-- A method that returns, with a line at the instruction and a line at the end. -/
def returnCode : CodeAttribute :=
  ⟨0, 0, [0xb1], [], [⟨1, LineNumber.writeTable [⟨0, 5⟩, ⟨1, 7⟩]⟩]⟩

def returnPool : ConstantPool := ⟨#[none, some (.utf8 "LineNumberTable")]⟩

/-- The line at the end is not sent. -/
theorem told_events_end : ∃ b : Body, read returnPool returnCode.write = .ok b ∧
    b.events.2 = none ∧ b.lines = [⟨0, 5⟩, ⟨1, 7⟩] ∧
      b.events.1.filterMap BodyEvent.line? = [(5, b.label 0)] := by
  have hfits : returnCode.Fits := by
    refine ⟨by decide, ⟨by decide, by simp [returnCode]⟩, by decide, fun a ha => ?_⟩
    obtain rfl := List.mem_singleton.1 ha
    unfold Attribute.Fits
    decide
  have hb : read returnPool returnCode.write = .ok
      ⟨0, 0, 1, [(0, .branch (.exit .returnVoid))], [], [], [⟨0, 5⟩, ⟨1, 7⟩], [], [], [], []⟩ := by
    refine read_eq_ok (c := returnCode) (CodeAttribute.read_write hfits) rfl ?_
    refine ⟨by decide, by decide, fun o ho => ?_⟩
    have hmem : o ∈ [0, 1] := ho
    fin_cases hmem <;> decide
  have hnone := events_none (b := ⟨0, 0, 1, [(0, .branch (.exit .returnVoid))], [], [],
    [⟨0, 5⟩, ⟨1, 7⟩], [], [], [], []⟩) rfl
  obtain ⟨c, -, -, htold⟩ := told_events hb hnone
  exact ⟨_, hb, hnone, rfl, List.perm_singleton.1 htold.lines⟩

end Body

end FreshLocal
