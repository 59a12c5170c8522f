import FreshLocal.Proofs.AcceptedEvents
import FreshLocal.Proofs.PoolAdditions

/-!
# Lengths in front of lists

The lists of a class file stand behind their lengths in 16 bits. The builder does
not ask how long a list is. So a length is right exactly if the list is not longer
than 16 bits can say; of a longer list it states the low-order bits. How long the
lists are depends on the events alone: tables have an entry for each of their
events, and a method with a body has one attribute more than was sent.

The constant pool is different. It takes no more constants than it can count, and
a text in it that is too long was sent, either with the pool of the class or as
the name of a class in a frame.

* `LengthPrefix`, `Lengths`: a length, and the lengths in some bytes.
* `ClassEvent.lengths`: how long the lists are that some events make.
* `CodeAttribute.Holds.hasLengths`, `ClassBuilder.Builds.hasEntries`: **the lengths
  in a body that was stored** and in the methods that were built.
* `ClassBuilder.lengths_of_built`: **the lengths in the bytes of a class**.
-/

namespace FreshLocal

/-- **A length in front of a list**: what it states, and how many entries there are. -/
structure LengthPrefix where
  stated : UInt16
  actual : Nat

namespace LengthPrefix

/-- Does the length state how many entries there are? -/
def Exact (p : LengthPrefix) : Prop := p.stated.toNat = p.actual

/-- The length that is written in front of so many entries. -/
def written (n : Nat) : LengthPrefix := ⟨UInt16.ofNat n, n⟩

theorem toNat_stated_written (n : Nat) : (written n).stated.toNat = n % 65536 :=
  UInt16.toNat_ofNat'

/-- **A length that is written is exact** if the list is not too long, and only then. -/
theorem exact_written (n : Nat) : (written n).Exact ↔ n ≤ 65535 := by
  have hmod : (written n).Exact ↔ n % 65536 = n := by rw [Exact, toNat_stated_written]; rfl
  rw [hmod]
  omega

end LengthPrefix

open LengthPrefix

/-- **The lengths in some bytes**, in their order, with the length of a list in front of those in
its entries. Behind a length stand as many entries as it counts, and each of them has some bytes. -/
inductive Lengths : Bytes → List LengthPrefix → Prop
  /-- Bytes in which nothing is counted. -/
  | plain (bs : Bytes) : Lengths bs []
  | append {bs bs' : Bytes} {ps ps' : List LengthPrefix} (h : Lengths bs ps)
      (h' : Lengths bs' ps') : Lengths (bs ++ bs') (ps ++ ps')
  | list (stated : UInt16) {entries : List (Bytes × List LengthPrefix)}
      (hsome : ∀ x ∈ entries, x.1 ≠ []) (h : ∀ x ∈ entries, Lengths x.1 x.2) :
      Lengths (.u16 stated ++ entries.flatMap Prod.fst)
        (⟨stated, entries.length⟩ :: entries.flatMap Prod.snd)

/-- The lists in some bytes are so long, and their lengths are written as they come. -/
def HasLengths (bs : Bytes) (ns : List Nat) : Prop := Lengths bs (ns.map written)

/-- How long a list is, and then the lists in its entries. -/
def listLengths (entries : List (List Nat)) : List Nat := entries.length :: entries.flatten

/-- The entries of a list have some bytes each, and in them lists that are so long. -/
def HasEntries {α : Type} (write : α → Bytes) (xs : List α) (nss : List (List Nat)) : Prop :=
  List.Forall₂ (fun x ns => write x ≠ [] ∧ HasLengths (write x) ns) xs nss

section Lists

variable {α : Type} {write : α → Bytes} {ns : α → List Nat} {xs : List α} {nss : List (List Nat)}

namespace HasLengths

variable {bs bs' : Bytes} {ms ms' : List Nat}

theorem plain (bs : Bytes) : HasLengths bs [] := Lengths.plain bs

theorem append (h : HasLengths bs ms) (h' : HasLengths bs' ms') :
    HasLengths (bs ++ bs') (ms ++ ms') := by
  have hboth := Lengths.append h h'
  rwa [← List.map_append] at hboth

/-- Bytes in which nothing is counted may stand in front. -/
theorem behind (bs : Bytes) (h : HasLengths bs' ms) : HasLengths (bs ++ bs') ms :=
  (plain bs).append h

/-- And so they may behind. -/
theorem before (bs' : Bytes) (h : HasLengths bs ms) : HasLengths (bs ++ bs') ms := by
  have hboth := h.append (plain bs')
  rwa [List.append_nil] at hboth

theorem flatMap (h : ∀ x ∈ xs, HasLengths (write x) (ns x)) :
    HasLengths (xs.flatMap write) (xs.flatMap ns) := by
  induction xs with
  | nil => exact plain []
  | cons x xs ih =>
    rw [List.flatMap_cons, List.flatMap_cons]
    exact (h x List.mem_cons_self).append (ih fun y hy => h y (List.mem_cons_of_mem _ hy))

end HasLengths

namespace HasEntries

/-- Entries that are all of one kind. -/
theorem map (h : ∀ x, write x ≠ [] ∧ HasLengths (write x) (ns x)) (xs : List α) :
    HasEntries write xs (xs.map ns) := by
  rw [HasEntries, List.forall₂_map_right_iff, List.forall₂_same]
  exact fun x _ => h x

theorem exists_entries (h : HasEntries write xs nss) :
    ∃ entries : List (Bytes × List LengthPrefix), entries.length = nss.length ∧
      entries.flatMap Prod.fst = xs.flatMap write ∧
      entries.flatMap Prod.snd = nss.flatten.map written ∧
      (∀ x ∈ entries, x.1 ≠ []) ∧ ∀ x ∈ entries, Lengths x.1 x.2 := by
  induction h with
  | nil => exact ⟨[], rfl, rfl, rfl, by simp, by simp⟩
  | @cons x ns xs nss hx _ ih =>
    obtain ⟨entries, hlength, hbytes, hlengths, hsome, hentries⟩ := ih
    refine ⟨(write x, ns.map written) :: entries, ?_, ?_, ?_, ?_, ?_⟩
    · rw [List.length_cons, List.length_cons, hlength]
    · rw [List.flatMap_cons, List.flatMap_cons, hbytes]
    · rw [List.flatMap_cons, List.flatten_cons, List.map_append, hlengths]
    · exact List.forall_mem_cons.2 ⟨hx.1, hsome⟩
    · exact List.forall_mem_cons.2 ⟨hx.2, hentries⟩

/-- **A list behind its length**, with the lengths in each of its entries. -/
theorem counted (h : HasEntries write xs nss) :
    HasLengths (Bytes.counted write xs) (listLengths nss) := by
  obtain ⟨entries, hlength, hbytes, hlengths, hsome, hentries⟩ := h.exists_entries
  have hlist := Lengths.list (UInt16.ofNat xs.length) hsome hentries
  rw [hbytes, hlengths, hlength, h.length_eq] at hlist
  rw [HasLengths, Bytes.counted, h.length_eq]
  exact hlist

end HasEntries

/-- A list in whose entries nothing is counted. -/
theorem HasLengths.counted_plain (h : ∀ x, write x ≠ []) (xs : List α) :
    HasLengths (Bytes.counted write xs) [xs.length] := by
  have hentries : HasEntries write xs (xs.map fun _ => []) := .map (fun x => ⟨h x, .plain _⟩) xs
  have hlist := hentries.counted
  rwa [listLengths, List.length_map, List.flatten_eq_nil_iff.2 (by simp)] at hlist

end Lists

theorem Bytes.u16_ne_nil (x : UInt16) : u16 x ≠ [] :=
  List.ne_nil_of_length_pos (by rw [length_u16]; decide)

/-! ## Constants and attributes -/

/-- The bytes of a text are counted. -/
def Constant.lengths : Constant → List Nat
  | utf8 text => [(ModifiedUtf8.encode text).length]
  | _ => []

theorem Constant.hasLengths (c : Constant) : HasLengths c.write c.lengths := by
  cases c with
  | utf8 text =>
    have hbody : HasLengths (Bytes.counted (fun b => [b]) (ModifiedUtf8.encode text)) _ :=
      .counted_plain (fun b => List.cons_ne_nil b []) _
    rw [Bytes.counted, List.flatMap_singleton'] at hbody
    rw [write, List.append_assoc]
    exact hbody.behind _
  | _ => exact .plain _

/-- How long the texts of a pool are. -/
def ConstantPool.lengths (pool : ConstantPool) : List Nat :=
  (pool.entries.toList.filterMap id).flatMap Constant.lengths

/-- The count of a pool is not the number of its constants, since a wide one takes two indices. -/
theorem ConstantPool.hasLengths (pool : ConstantPool) : HasLengths pool.write pool.lengths :=
  (HasLengths.flatMap fun c _ => c.hasLengths).behind _

theorem Attribute.write_ne_nil (a : Attribute) : a.write ≠ [] := by
  simp [write, Bytes.u16_ne_nil]

/-- In the bodies of attributes there are lists that are so long. -/
def HasBodies (as : List Attribute) (nss : List (List Nat)) : Prop :=
  List.Forall₂ (fun a ns => HasLengths (Attribute.body a) ns) as nss

/-- Attributes of which nothing is known. -/
theorem HasBodies.plain (as : List Attribute) : HasBodies as (as.map fun _ => []) := by
  rw [HasBodies, List.forall₂_map_right_iff, List.forall₂_same]
  exact fun a _ => .plain _

theorem HasBodies.entries {as : List Attribute} {nss : List (List Nat)} (h : HasBodies as nss) :
    HasEntries Attribute.write as nss :=
  h.imp fun a _ ha => ⟨a.write_ne_nil, ha.behind _⟩

theorem Member.write_ne_nil {known : UInt16} (m : Member known) : m.write ≠ [] := by
  simp [write, Bytes.u16_ne_nil]

/-- The attributes of a field or a method are counted. -/
theorem Member.hasLengths {known : UInt16} {m : Member known} {nss : List (List Nat)}
    (h : HasBodies m.attributes nss) : HasLengths m.write (listLengths nss) :=
  h.entries.counted.behind _

/-! ## Tables -/

/-- The lists of a full frame are counted. -/
def Frame.lengths {κ π : Type} : Frame κ π → List Nat
  | full locals stack => [locals.length, stack.length]
  | _ => []

theorem Frame.lengths_map {κ κ' π π' : Type} (g : κ → κ') (k : π → π') (f : Frame κ π) :
    (f.map g k).lengths = f.lengths := by
  cases f <;> simp [Frame.map, lengths]

theorem StackMapFrame.hasLengths (f : StackMapFrame) :
    f.write ≠ [] ∧ HasLengths f.write f.frame.lengths := by
  refine ⟨f.write_ne_nil, ?_⟩
  obtain ⟨distance, frame⟩ := f
  cases frame with
  | full locals stack =>
    have hlocals := HasLengths.counted_plain StoredType.write_ne_nil locals
    exact (hlocals.behind _).append (.counted_plain StoredType.write_ne_nil stack)
  | _ => exact .plain _

/-- The ranges of a local variable are counted. -/
def AnnotationTarget.lengths {π : Type} : AnnotationTarget π → List Nat
  | localVariable _ ranges => [ranges.length]
  | _ => []

theorem AnnotationTarget.lengths_map {π π' : Type} (g : π → π') (t : AnnotationTarget π) :
    (t.map g).lengths = t.lengths := by
  cases t <;> simp [AnnotationTarget.map, lengths]

theorem AnnotatedType.hasLengths (a : AnnotatedType UInt16) :
    a.write ≠ [] ∧ HasLengths a.write a.target.lengths := by
  have hrange : ∀ r : LocalRange UInt16, r.write ≠ [] := fun r => by
    simp [LocalRange.write, Bytes.u16_ne_nil]
  have htarget : HasLengths a.target.write a.target.lengths := by
    cases a.target with
    | localVariable isResource ranges => exact (HasLengths.counted_plain hrange ranges).behind _
    | _ => exact .plain _
  exact ⟨by simp [write, Bytes.u8], ((htarget.before _).before _).before _⟩

theorem LineNumber.hasLengths (l : LineNumber) : l.write ≠ [] ∧ HasLengths l.write [] :=
  ⟨by simp [write, Bytes.u16_ne_nil], .plain _⟩

theorem VariableEntry.hasLengths (v : VariableEntry) : v.write ≠ [] ∧ HasLengths v.write [] :=
  ⟨by simp [write, Bytes.u16_ne_nil], .plain _⟩

/-- The lengths in the attribute of a table, if the table is not empty. -/
def tableLengths (entries : List (List Nat)) : List (List Nat) :=
  if entries.isEmpty then [] else [listLengths entries]

variable {pool pool' : ConstantPool}

/-- **A table that was stored** has as many entries as were to be stored. -/
theorem HasEntries.tableAttribute {α : Type} {name : String} {write : α → Bytes} {xs : List α}
    {as : List Attribute} {nss : List (List Nat)} (hxs : HasEntries write xs nss)
    (h : (tableAttribute name (Bytes.counted write) xs).run pool = .ok as pool') :
    HasBodies as (tableLengths nss) := by
  have hlength := hxs.length_eq
  unfold tableLengths
  obtain ⟨rfl, rfl, -⟩ | ⟨hentries, index, -, rfl⟩ := tableAttribute_cases h
  · rw [if_pos (List.isEmpty_iff_length_eq_zero.2 hlength.symm)]
    exact .nil
  · have hsome : ¬nss.isEmpty = true := by
      rwa [List.isEmpty_iff_length_eq_zero, ← hlength, List.length_eq_zero_iff]
    rw [if_neg hsome]
    exact .cons hxs.counted .nil

/-! ## Bodies -/

/-- The lengths in the attributes of a body with these entries in its tables, and with so many
attributes that are none of the tables. -/
def attributeLengths (tables : List (List (List Nat))) (others : Nat) : List (List Nat) :=
  tables.flatMap tableLengths ++ List.replicate others []

namespace BodyEvent

/-- **How long the lists are** in the stored form of some events of a body: the handlers, the
attributes, and the entries of each table. -/
def lengths (events : List BodyEvent) : List Nat :=
  let annotations := fun visible =>
    (events.filterMap annotation?).filter (·.visible == visible)
  (events.filterMap handler?).length :: listLengths (attributeLengths
    [(frames events).map Frame.lengths,
      (events.filterMap line?).map fun _ => [],
      (events.filterMap (local? false)).map fun _ => [],
      (events.filterMap (local? true)).map fun _ => [],
      (annotations true).map (·.target.lengths),
      (annotations false).map (·.target.lengths)]
    (events.filterMap attribute?).length)

/-- The frames of some events are those among their items. -/
theorem frames_filterMap (events : List BodyEvent) : frames events =
    (events.filterMap item?).filterMap fun
      | .frame f => some f
      | _ => none := by
  rw [frames, List.filterMap_filterMap]
  refine List.filterMap_congr fun e _ => ?_
  cases e <;> rfl

end BodyEvent

namespace Body

/-- **How long the lists of a body are.** -/
def lengths (b : Body) : List Nat :=
  b.handlers.length :: listLengths (attributeLengths
    [b.frames.map (·.2.lengths), b.lines.map fun _ => [], b.locals.map fun _ => [],
      b.genericLocals.map fun _ => [],
      (b.annotations.filter (·.visible == true)).map (·.target.lengths),
      (b.annotations.filter (·.visible == false)).map (·.target.lengths)]
    b.attributes.length)

end Body

/-- The body at the offsets of a layout has the entries that the events have. -/
theorem Layout.lengths_body {layout : Layout} {events : List BodyEvent}
    (h : layout.Sound (events.filterMap BodyEvent.item?)) (maxStack maxLocals : UInt16) :
    (layout.body events maxStack maxLocals).lengths = BodyEvent.lengths events := by
  have hframes : (layout.body events maxStack maxLocals).frames.map (·.2.lengths) =
      (BodyEvent.frames events).map Frame.lengths := by
    rw [BodyEvent.frames_filterMap, ← h.items, List.filterMap_map, List.map_filterMap]
    simp only [body, List.map_filterMap]
    refine List.filterMap_congr fun p _ => ?_
    rw [Function.comp_apply, PlacedItem.frame?]
    cases p.item with
    | frame f => exact congrArg some (f.lengths_map _ _)
    | _ => rfl
  have hannotations : ∀ visible, ((layout.body events maxStack maxLocals).annotations.filter
      (·.visible == visible)).map (·.target.lengths) =
      ((events.filterMap BodyEvent.annotation?).filter (·.visible == visible)).map
        (·.target.lengths) := by
    intro visible
    rw [annotations_body, List.map_map]
    exact List.map_congr_left fun a _ => a.target.lengths_map _
  rw [Body.lengths, BodyEvent.lengths, hframes, hannotations, hannotations]
  simp only [body, List.map_map, List.length_map]
  rfl

/-- A frame is stored with the lists that it has. -/
theorem Frame.lengths_of_run {f : Frame String UInt16} {f' : Frame PoolIndex UInt16}
    (h : (f.mapM ConstantPool.classIndex (pure : UInt16 → PoolM UInt16)).run pool = .ok f' pool') :
    f'.lengths = f.lengths := by
  cases f with
  | same | chop _ =>
    obtain ⟨rfl, -⟩ := PoolM.pure_eq_ok.1 h
    rfl
  | sameOne _ | append _ =>
    obtain ⟨_, -, rfl⟩ := PoolM.map_eq_ok.1 h
    rfl
  | full locals stack =>
    obtain ⟨g, p, stack', hg, hstack, rfl⟩ := PoolM.seq_eq_ok.1 h
    obtain ⟨locals', hlocals, rfl⟩ := PoolM.map_eq_ok.1 hg
    rw [lengths, lengths, (PoolM.forall₂_of_mapM hlocals).length_eq,
      (PoolM.forall₂_of_mapM hstack).length_eq]

theorem Body.lengths_storeFrames {before : Option Nat} {frames : List (Nat × Frame String UInt16)}
    {stored : List StackMapFrame} (h : (storeFrames before frames).run pool = .ok stored pool') :
    stored.map (·.frame.lengths) = frames.map (·.2.lengths) := by
  induction frames generalizing before stored pool with
  | nil =>
    obtain ⟨rfl, -⟩ := PoolM.pure_eq_ok.1 h
    rfl
  | cons x frames ih =>
    obtain ⟨first, p, hfirst, h⟩ := PoolM.bind_eq_ok.1 h
    obtain ⟨others, hothers, rfl⟩ := PoolM.map_eq_ok.1 h
    rw [List.map_cons, List.map_cons, ih hothers, Frame.lengths_of_run hfirst]

/-- **The attributes of a body** that were stored. -/
theorem Body.hasBodies_storeAttributes {b : Body} {as : List Attribute}
    (h : b.storeAttributes.run pool = .ok as pool') :
    HasBodies as (attributeLengths
      [b.frames.map (·.2.lengths), b.lines.map fun _ => [], b.locals.map fun _ => [],
        b.genericLocals.map fun _ => [],
        (b.annotations.filter (·.visible == true)).map (·.target.lengths),
        (b.annotations.filter (·.visible == false)).map (·.target.lengths)]
      b.attributes.length) := by
  obtain ⟨stored, frames, lines, locals, generics, visible, invisible, _, _, _, _, _, _, hstored,
    hframes, hlines, hlocals, hgenerics, hvisible, hinvisible, rfl⟩ := storeAttributes_cases h
  -- a frame is stored with the indices of its classes, and with lists as long
  have hframeTable := (HasEntries.map StackMapFrame.hasLengths stored).tableAttribute hframes
  rw [lengths_storeFrames hstored] at hframeTable
  have htables := List.rel_append (List.rel_append (List.rel_append (List.rel_append
    (List.rel_append hframeTable
      ((HasEntries.map LineNumber.hasLengths b.lines).tableAttribute hlines))
      ((HasEntries.map VariableEntry.hasLengths b.locals).tableAttribute hlocals))
      ((HasEntries.map VariableEntry.hasLengths b.genericLocals).tableAttribute hgenerics))
      ((HasEntries.map AnnotatedType.hasLengths _).tableAttribute hvisible))
      ((HasEntries.map AnnotatedType.hasLengths _).tableAttribute hinvisible)
  have hall := List.rel_append htables (HasBodies.plain b.attributes)
  simpa [HasBodies, attributeLengths] using hall

/-- **The lengths in a body that was stored.** -/
theorem CodeAttribute.Holds.hasLengths {c : CodeAttribute} {b : Body} (h : c.Holds b pool pool') :
    HasLengths c.write b.lengths := by
  have hhandler : ∀ x : Handler UInt16, x.write ≠ [] := fun x => by
    simp [Handler.write, Bytes.u16_ne_nil]
  have hhandlers := HasLengths.counted_plain hhandler c.handlers
  have hattributes := (Body.hasBodies_storeAttributes h.attributes).entries.counted
  rw [h.handlers] at hhandlers
  rw [Body.lengths, write, h.handlers]
  exact (hhandlers.behind _).append hattributes

/-! ## Methods and classes -/

/-- **How long the lists of a method are.** Its body, if it has one, is one more attribute. -/
def SentMethod.lengths (x : SentMethod) : List Nat :=
  listLengths ((if x.2.isEmpty then [] else [BodyEvent.lengths x.2]) ++
    x.1.attributes.map fun _ => [])

/-- **How long the lists are** that a class has behind its constant pool. -/
def ClassEvent.lengths (c : ClassDeclaration) (events : List ClassEvent) : List Nat :=
  c.interfaces.length ::
    (listLengths ((events.filterMap field?).map fun f => [f.attributes.length]) ++
      listLengths ((methods (events.filter (·.isInner))).map SentMethod.lengths) ++
      [(events.filterMap attribute?).length])

/-- **The lengths in a class**, given those in its methods. -/
theorem ClassFile.hasLengths {c : ClassFile} {nss : List (List Nat)}
    (h : HasEntries Member.write c.methods.toList nss) :
    HasLengths c.write (c.pool.lengths ++ c.interfaces.length ::
      (listLengths (c.fields.toList.map fun f => [f.attributes.length]) ++ listLengths nss ++
        [c.attributes.toList.length])) := by
  have hfield : ∀ f : Field, f.write ≠ [] ∧ HasLengths f.write [f.attributes.length] := fun f =>
    ⟨f.write_ne_nil, (HasLengths.counted_plain Attribute.write_ne_nil f.attributes).behind _⟩
  -- along the bytes: the pool, the interfaces, the fields, the methods and the attributes
  have hpool := ((((c.pool.hasLengths.behind (.u32 magic ++ c.version.write)).before
    c.flags.write).before (.u16 c.thisClass)).before (.u16 c.superClass))
  have hinterfaces := hpool.append (.counted_plain Bytes.u16_ne_nil c.interfaces)
  have hmembers := (hinterfaces.append (HasEntries.map hfield c.fields.toList).counted).append
    h.counted
  have hwhole := hmembers.append (.counted_plain Attribute.write_ne_nil c.attributes.toList)
  rw [write]
  simpa only [List.append_assoc, List.cons_append, List.nil_append] using hwhole

namespace ClassBuilder

theorem hasLengths_complete {x : SentMethod} {draft : Option Draft} {m : Method}
    (hdraft : Drafted x.2 draft)
    (h : (complete (ofMethodDeclaration x.1) draft).run pool = .ok m pool') :
    HasLengths m.write (SentMethod.lengths x) := by
  refine Member.hasLengths ?_
  cases draft with
  | none =>
    have hnone : x.2 = [] := hdraft
    obtain ⟨rfl, -⟩ := PoolM.pure_eq_ok.1 h
    rw [if_pos (List.isEmpty_iff.2 hnone), List.nil_append]
    exact HasBodies.plain _
  | some d =>
    obtain ⟨c, p, index, hc, -, rfl⟩ := complete_cases h
    obtain ⟨layout, hlayout, -, hholds⟩ := Draft.holds_of_assemble hdraft.2 hc
    have hcode := hholds.hasLengths
    rw [Layout.lengths_body (Layout.ofItems_eq_ok hlayout)] at hcode
    rw [if_neg fun h => hdraft.1 (List.isEmpty_iff.1 h), List.singleton_append]
    exact .cons hcode (HasBodies.plain _)

/-- **The lengths in the methods that were built.** -/
theorem Builds.hasEntries {xs : List SentMethod} {ms : List Method} (h : Builds pool xs ms pool') :
    HasEntries Member.write ms (xs.map SentMethod.lengths) := by
  induction h with
  | nil => exact .nil
  | cons hdraft hm _ ih =>
    rw [List.map_cons]
    exact .cons ⟨Member.write_ne_nil _, hasLengths_complete hdraft hm⟩ ih

/-- **The lengths in the bytes of a class**, whatever events the builder took. They are those of the
texts in the pool, and then those of the lists that the events make. Each states the length of its
list to the low-order 16 bits, so that it is exact if and only if the list is not too long. The pool
does not take more constants than it can count, and a text in it that is too long was sent. -/
theorem lengths_of_built {events : List ClassEvent} {b : ClassBuilder} {bytes : Bytes}
    (h : Sink.feed receive .empty events = (b, none)) (hbytes : b.finish = .ok bytes) :
    ∃ c rest built ps, events = .classStart c :: rest ∧ bytes = ClassFile.write built ∧
      Lengths bytes ps ∧
      ps.map LengthPrefix.actual = built.pool.lengths ++ ClassEvent.lengths c rest ∧
      (∀ p ∈ ps, p.stated.toNat = p.actual % 65536) ∧
      ((∀ p ∈ ps, p.Exact) ↔ ∀ n ∈ built.pool.lengths ++ ClassEvent.lengths c rest, n ≤ 65535) ∧
      (c.pool.count ≤ 65535 → built.pool.count ≤ 65535) ∧
      ∀ text, built.pool.HasText text → c.pool.HasText text ∨ ShortText text ∨
        ∃ x ∈ ClassEvent.methods (rest.filter (·.isInner)),
          ∃ f, .frame f ∈ x.2 ∧ .object text ∈ f.types := by
  obtain ⟨c, rest, pool, ms, rfl, hbuilds, rfl⟩ := built_of_feed h hbytes
  obtain ⟨hcount, htexts⟩ := hbuilds.adds
  have hlengths := ClassFile.hasLengths
    (c := { ofDeclaration c with
      pool, fields := (rest.filterMap ClassEvent.field?).toArray, methods := ms.toArray
      attributes := (rest.filterMap ClassEvent.attribute?).toArray }) hbuilds.hasEntries
  refine ⟨c, rest, _, _, rfl, rfl, hlengths, ?_, ?_, ?_, hcount, htexts⟩
  · rw [List.map_map]
    exact List.map_id _
  · intro p hp
    obtain ⟨n, -, rfl⟩ := List.mem_map.1 hp
    exact toNat_stated_written n
  · rw [List.forall_mem_map]
    exact forall₂_congr fun n _ => exact_written n

/-- A class with one interface more than 16 bits can count. -/
def crowdedClass : ClassDeclaration :=
  { version := .java8, pool := .empty, flags := .publicSuper, thisClass := 0
    name := ⟨"Crowded", by decide⟩, superClass := 0, interfaces := List.replicate 65536 0 }

/-- The builder takes the class, and in front of its interfaces it states that there are none. -/
theorem lengths_of_built_crowded : ∃ b bytes ps,
    Sink.feed receive .empty [.classStart crowdedClass, .classEnd] = (b, none) ∧
      b.finish = .ok bytes ∧ Lengths bytes ps ∧ ⟨0, 65536⟩ ∈ ps := by
  have hfeed : Sink.feed receive .empty [.classStart crowdedClass, .classEnd] =
      (⟨some (ofDeclaration crowdedClass), none, true⟩, none) := rfl
  obtain ⟨c, rest, built, ps, hevents, -, hlengths, hactual, hstated, -⟩ :=
    lengths_of_built hfeed rfl
  obtain ⟨hstart, -⟩ := List.cons.inj hevents
  obtain rfl := ClassEvent.classStart.inj hstart
  have hmem : 65536 ∈ ps.map LengthPrefix.actual := by
    have hlength : crowdedClass.interfaces.length = 65536 := List.length_replicate
    rw [hactual, ClassEvent.lengths, hlength]
    exact List.mem_append_right _ List.mem_cons_self
  obtain ⟨⟨stated, actual⟩, hp, rfl⟩ := List.mem_map.1 hmem
  have hzero : stated.toNat = 65536 % 65536 := hstated _ hp
  rw [Nat.mod_self] at hzero
  obtain rfl : stated = 0 := UInt16.toNat.inj hzero
  exact ⟨_, _, ps, hfeed, rfl, hlengths, hp⟩

end ClassBuilder

end FreshLocal
