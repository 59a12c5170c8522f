import FreshLocal.Proofs.BodyReading
import FreshLocal.Proofs.CodeAssembly

/-!
# Tables are stored

A table that is not empty becomes an attribute, whose name is added to the pool.
With a pool that has grown the attribute is read back as the table.

* `CodePart.read_frames`, `read_lines`, ...: what an attribute is read as.
* `StoredTable`: what a table of some events is stored as.
* `tableAttribute_eq_ok`: **a table that was stored**.
-/

namespace FreshLocal

variable {P pool pool' : ConstantPool} {a : Attribute}

namespace CodePart

theorem read_frames {table : List StackMapFrame} {fs : List (Nat × Frame String UInt16)}
    (hname : P.utf8 a.name = .ok StackMapFrame.tableName)
    (h : StackMapFrame.readTable a.body = .ok table) (hfs : resolveFrames P table = .ok fs) :
    read P a = .ok (.frames fs) := by
  refine Except.bind_eq_ok.2 ⟨_, hname, ?_⟩
  rw [if_pos rfl]
  exact Except.bind_eq_ok.2 ⟨_, h, Except.map_eq_ok.2 ⟨_, hfs, rfl⟩⟩

theorem read_lines {ls : List LineNumber} (hname : P.utf8 a.name = .ok LineNumber.tableName)
    (h : LineNumber.readTable a.body = .ok ls) : read P a = .ok (.lines ls) := by
  refine Except.bind_eq_ok.2 ⟨_, hname, ?_⟩
  rw [if_neg (by decide), if_pos rfl]
  exact Except.map_eq_ok.2 ⟨_, h, rfl⟩

theorem read_locals {isGeneric : Bool} {vs : List VariableEntry}
    (hname : P.utf8 a.name = .ok (VariableEntry.tableName isGeneric))
    (h : VariableEntry.readTable isGeneric a.body = .ok vs) :
    read P a = .ok (.locals isGeneric vs) := by
  refine Except.bind_eq_ok.2 ⟨_, hname, ?_⟩
  cases isGeneric with
  | false =>
    rw [if_neg (by decide), if_neg (by decide), if_pos rfl]
    exact Except.map_eq_ok.2 ⟨_, h, rfl⟩
  | true =>
    rw [if_neg (by decide), if_neg (by decide), if_neg (by decide), if_pos rfl]
    exact Except.map_eq_ok.2 ⟨_, h, rfl⟩

theorem read_annotations {visible : Bool} {as : List (AnnotatedType UInt16)}
    (hname : P.utf8 a.name = .ok (AnnotatedType.tableName visible))
    (h : AnnotatedType.readTable visible a.body = .ok as) : read P a = .ok (.annotations as) := by
  refine Except.bind_eq_ok.2 ⟨_, hname, ?_⟩
  cases visible with
  | false =>
    rw [if_neg (by decide), if_neg (by decide), if_neg (by decide), if_neg (by decide),
      if_neg (by decide), if_pos rfl]
    exact Except.map_eq_ok.2 ⟨_, h, rfl⟩
  | true =>
    rw [if_neg (by decide), if_neg (by decide), if_neg (by decide), if_neg (by decide), if_pos rfl]
    exact Except.map_eq_ok.2 ⟨_, h, rfl⟩

theorem read_other (h : P.NamesOther a) : read P a = .ok (.other a) := by
  obtain ⟨name, hname, hother⟩ := h
  simp only [tableNames, List.mem_cons, List.not_mem_nil, or_false, not_or] at hother
  obtain ⟨h1, h2, h3, h4, h5, h6⟩ := hother
  refine Except.bind_eq_ok.2 ⟨_, hname, ?_⟩
  rw [if_neg h1, if_neg h2, if_neg h3, if_neg h4, if_neg h5, if_neg h6]
  rfl

/-- Does a part list nothing? -/
def Empty : CodePart → Prop
  | frames fs => fs = []
  | lines ls => ls = []
  | locals _ vs => vs = []
  | annotations found => found = []
  | other _ => False

/-- A part that lists nothing adds nothing to a body. -/
theorem Empty.picks_none {part : CodePart} (h : part.Empty) :
    part.frames? = [] ∧ part.lines? = [] ∧ (∀ generic, part.locals? generic = []) ∧
      part.annotations? = [] ∧ part.other? = [] := by
  cases part with
  | frames fs => exact ⟨h, rfl, fun _ => rfl, rfl, rfl⟩
  | lines ls => exact ⟨rfl, h, fun _ => rfl, rfl, rfl⟩
  | locals isGeneric vs =>
    refine ⟨rfl, rfl, fun generic => ?_, rfl, rfl⟩
    rw [locals?, show vs = [] from h, ite_self]
  | annotations found => exact ⟨rfl, rfl, fun _ => rfl, h, rfl⟩
  | other a => exact absurd h id

end CodePart

namespace BodyEvent

variable {events : List BodyEvent} {name : String}

theorem mem_tables : name ∈ events.filterMap table? ↔
    events.filter (·.table? = some name) ≠ [] := by
  rw [List.mem_filterMap, ← List.length_pos_iff, List.length_pos_iff_exists_mem]
  simp only [List.mem_filter, decide_eq_true_eq]

/-- A table has an entry for each of its events. -/
theorem length_filterMap {α : Type} {p : BodyEvent → Option α}
    (hp : ∀ e, (p e).isSome ↔ e.table? = some name) :
    (events.filterMap p).length = (events.filter (·.table? = some name)).length := by
  induction events with
  | nil => rfl
  | cons e rest ih =>
    by_cases he : e.table? = some name
    · obtain ⟨x, hx⟩ := Option.isSome_iff_exists.1 ((hp e).2 he)
      rw [List.filterMap_cons_some hx, List.filter_cons_of_pos (by simpa using he),
        List.length_cons, List.length_cons, ih]
    · have hx : p e = none := by
        rw [← Option.not_isSome_iff_eq_none, hp]; exact he
      rw [List.filterMap_cons_none hx, List.filter_cons_of_neg (by simpa using he), ih]

theorem length_lines (events : List BodyEvent) : (events.filterMap line?).length =
    (events.filter (·.table? = some LineNumber.tableName)).length := by
  refine length_filterMap fun e => ?_
  cases e with
  | frame f => simp [line?, table?, StackMapFrame.tableName, LineNumber.tableName]
  | localVariable g v =>
    cases g <;> simp [line?, table?, VariableEntry.tableName, LineNumber.tableName]
  | annotatedType a =>
    cases hv : a.visible <;>
      simp [line?, table?, hv, AnnotatedType.tableName, LineNumber.tableName]
  | _ => simp [line?, table?]

theorem length_locals (generic : Bool) (events : List BodyEvent) :
    (events.filterMap (local? generic)).length =
      (events.filter (·.table? = some (VariableEntry.tableName generic))).length := by
  refine length_filterMap fun e => ?_
  cases e with
  | frame f =>
    cases generic <;> simp [local?, table?, StackMapFrame.tableName, VariableEntry.tableName]
  | lineNumber line l =>
    cases generic <;> simp [local?, table?, LineNumber.tableName, VariableEntry.tableName]
  | localVariable g v =>
    cases generic <;> cases g <;> simp [local?, table?, VariableEntry.tableName]
  | annotatedType a =>
    cases generic <;> cases hv : a.visible <;>
      simp [local?, table?, hv, AnnotatedType.tableName, VariableEntry.tableName]
  | _ => simp [local?, table?]

theorem length_annotations (visible : Bool) (events : List BodyEvent) :
    ((events.filterMap annotation?).filter (·.visible == visible)).length =
      (events.filter (·.table? = some (AnnotatedType.tableName visible))).length := by
  rw [List.filter_filterMap]
  refine length_filterMap fun e => ?_
  cases e with
  | frame f =>
    cases visible <;> simp [annotation?, table?, StackMapFrame.tableName, AnnotatedType.tableName]
  | lineNumber line l =>
    cases visible <;> simp [annotation?, table?, LineNumber.tableName, AnnotatedType.tableName]
  | localVariable g v =>
    cases visible <;> cases g <;>
      simp [annotation?, table?, AnnotatedType.tableName, VariableEntry.tableName]
  | annotatedType a =>
    cases visible <;> cases hv : a.visible <;>
      simp [annotation?, table?, hv, AnnotatedType.tableName]
  | _ => simp [annotation?, table?]

theorem length_frames (n : Nat) (events : List BodyEvent) :
    ((numbered n events).filterMap frame?).length =
      (events.filter (·.table? = some StackMapFrame.tableName)).length := by
  induction events generalizing n with
  | nil => rfl
  | cons e rest ih =>
    cases e with
    | frame f =>
      have hframe : frame? (n, .frame f) = some (n, f) := rfl
      rw [numbered, List.filterMap_cons_some hframe, List.filter_cons_of_pos (by simp [table?]),
        List.length_cons, List.length_cons, ih]
    | lineNumber line l =>
      rw [numbered, List.filterMap_cons_none rfl, List.filter_cons_of_neg
        (by simp [table?, LineNumber.tableName, StackMapFrame.tableName]), ih]
    | localVariable g v =>
      rw [numbered, List.filterMap_cons_none rfl, List.filter_cons_of_neg (by
        cases g <;> simp [table?, VariableEntry.tableName, StackMapFrame.tableName]), ih]
    | annotatedType a =>
      rw [numbered, List.filterMap_cons_none rfl, List.filter_cons_of_neg (by
        cases hv : a.visible <;>
          simp [table?, hv, AnnotatedType.tableName, StackMapFrame.tableName]), ih]
    | _ =>
      rw [numbered, List.filterMap_cons_none rfl, List.filter_cons_of_neg (by simp [table?]), ih]

end BodyEvent

theorem CodeAttribute.shortText_name : ShortText CodeAttribute.name := .of_length (by decide)

/-- Is each name of a table short enough for a constant? -/
theorem shortText_tableNames : ∀ name ∈ CodePart.tableNames, ShortText name := by
  have hlength : ∀ name ∈ CodePart.tableNames, 6 * name.toList.length ≤ 65535 := by decide
  exact fun name hname => .of_length (hlength name hname)

/-- What a table of some events is stored as: nothing if it is empty, and otherwise an attribute
that is read back as its part. -/
structure StoredTable (events : List BodyEvent) (name : String) (part : CodePart)
    (attributes : List Attribute) (pool : ConstantPool) : Prop where
  length : attributes.length = if name ∈ events.filterMap BodyEvent.table? then 1 else 0
  read : ∀ P, pool.Grows P → attributes.mapM (CodePart.read P) =
    .ok (if name ∈ events.filterMap BodyEvent.table? then [part] else [])
  empty : name ∉ events.filterMap BodyEvent.table? → part.Empty

/-- An empty table is not stored, and another one as an attribute with its name. -/
theorem tableAttribute_cases {α : Type} {name : String} {write : List α → Bytes}
    {entries : List α} {attributes : List Attribute}
    (h : (tableAttribute name write entries).run pool = .ok attributes pool') :
    (entries = [] ∧ attributes = [] ∧ pool = pool') ∨
      entries ≠ [] ∧ ∃ index, (ConstantPool.textIndex name).run pool = .ok index pool' ∧
        attributes = [⟨index, write entries⟩] := by
  unfold tableAttribute at h
  split at h
  · rename_i hempty
    obtain ⟨rfl, rfl⟩ := PoolM.pure_eq_ok.1 h
    exact .inl ⟨List.isEmpty_iff.1 hempty, rfl, rfl⟩
  · rename_i hsome
    obtain ⟨a, p, ha, h⟩ := PoolM.bind_eq_ok.1 h
    obtain ⟨rfl, rfl⟩ := PoolM.pure_eq_ok.1 h
    obtain ⟨index, q, hindex, ha⟩ := PoolM.bind_eq_ok.1 ha
    obtain ⟨rfl, rfl⟩ := PoolM.pure_eq_ok.1 ha
    exact .inr ⟨fun hnil => hsome (List.isEmpty_iff.2 hnil), index, hindex, rfl⟩

/-- **A table that was stored** is read back as its part. -/
theorem tableAttribute_eq_ok {α : Type} {events : List BodyEvent} {name : String}
    {write : List α → Bytes} {entries : List α} {attributes : List Attribute} {part : CodePart}
    (hname : name ∈ CodePart.tableNames) (hpool : pool.Stored)
    (hlength : entries.length = (events.filter (·.table? = some name)).length)
    (hpart : ∀ P a, pool.Grows P → P.utf8 a.name = .ok name → a.body = write entries →
      CodePart.read P a = .ok part) (hempty : entries = [] → part.Empty)
    (h : (tableAttribute name write entries).run pool = .ok attributes pool') :
    pool.Grows pool' ∧ pool'.Stored ∧ StoredTable events name part attributes pool' := by
  obtain ⟨rfl, rfl, rfl⟩ | ⟨hentries, index, hindex, rfl⟩ := tableAttribute_cases h
  · have hnone : name ∉ events.filterMap BodyEvent.table? := by
      rw [BodyEvent.mem_tables, not_not, ← List.length_eq_zero_iff, ← hlength]
      rfl
    refine ⟨.refl _, hpool, by rw [if_neg hnone]; rfl, fun P hP => ?_, fun _ => hempty rfl⟩
    rw [if_neg hnone]; rfl
  · obtain ⟨hgrows, hpool', hutf8⟩ :=
      ConstantPool.textIndex_eq_ok hpool (shortText_tableNames name hname) hindex
    have hsome : name ∈ events.filterMap BodyEvent.table? := by
      rwa [BodyEvent.mem_tables, Ne, ← List.length_eq_zero_iff, ← hlength, List.length_eq_zero_iff]
    refine ⟨hgrows, hpool', by rw [if_pos hsome]; rfl, fun P hP => ?_, absurd hsome⟩
    rw [if_pos hsome, mapM_eq_ok]
    exact .cons (hpart P _ (hgrows.trans hP) (hP.utf8 hutf8) rfl) .nil

theorem StoredTable.grows {events : List BodyEvent} {name : String} {part : CodePart}
    {attributes : List Attribute} (h : StoredTable events name part attributes pool)
    (hpool : pool.Grows pool') : StoredTable events name part attributes pool' :=
  ⟨h.length, fun P hP => h.read P (hpool.trans hP), h.empty⟩

/-- **Tables in a row** are read back as those of their parts that list something. -/
theorem flatten_storedTables {events : List BodyEvent} {tables : List (String × CodePart)}
    {lists : List (List Attribute)}
    (h : List.Forall₂ (fun x attributes => StoredTable events x.1 x.2 attributes pool)
      tables lists) :
    lists.flatten.length = ((tables.map Prod.fst).filter
        (· ∈ events.filterMap BodyEvent.table?)).length ∧
      ∀ P, pool.Grows P → lists.flatten.mapM (CodePart.read P) =
        .ok ((tables.filter (·.1 ∈ events.filterMap BodyEvent.table?)).map Prod.snd) := by
  induction h with
  | nil => exact ⟨rfl, fun P hP => rfl⟩
  | @cons x attributes tables lists hx _ ih =>
    obtain ⟨hlength, hread⟩ := ih
    rw [List.flatten_cons, List.length_append, hlength, hx.length]
    by_cases hmem : x.1 ∈ events.filterMap BodyEvent.table?
    · rw [if_pos hmem, List.map_cons, List.filter_cons_of_pos (by simpa using hmem),
        List.length_cons, Nat.add_comm]
      refine ⟨rfl, fun P hP => ?_⟩
      have hfirst := hx.read P hP
      rw [if_pos hmem] at hfirst
      rw [List.filter_cons_of_pos (by simpa using hmem), mapM_eq_ok]
      exact List.rel_append (mapM_eq_ok.1 hfirst) (mapM_eq_ok.1 (hread P hP))
    · rw [if_neg hmem, List.map_cons, List.filter_cons_of_neg (by simpa using hmem),
        Nat.zero_add]
      refine ⟨rfl, fun P hP => ?_⟩
      have hfirst := hx.read P hP
      rw [if_neg hmem] at hfirst
      rw [List.filter_cons_of_neg (by simpa using hmem), mapM_eq_ok]
      exact List.rel_append (mapM_eq_ok.1 hfirst) (mapM_eq_ok.1 (hread P hP))

/-- Only parts that list something add to a body. -/
theorem flatMap_tables {α : Type} {events : List BodyEvent} {tables : List (String × CodePart)}
    {p : CodePart → List α}
    (h : ∀ x ∈ tables, x.1 ∉ events.filterMap BodyEvent.table? → p x.2 = []) :
    ((tables.filter (·.1 ∈ events.filterMap BodyEvent.table?)).map Prod.snd).flatMap p =
      (tables.map Prod.snd).flatMap p := by
  induction tables with
  | nil => rfl
  | cons x tables ih =>
    have hrest := ih fun x hx => h x (by simp [hx])
    by_cases hmem : x.1 ∈ events.filterMap BodyEvent.table?
    · rw [List.filter_cons_of_pos (by simpa using hmem), List.map_cons, List.map_cons,
        List.flatMap_cons, List.flatMap_cons, hrest]
    · rw [List.filter_cons_of_neg (by simpa using hmem), List.map_cons, List.flatMap_cons,
        h x (by simp) hmem, List.nil_append, hrest]

end FreshLocal
