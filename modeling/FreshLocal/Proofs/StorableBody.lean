import FreshLocal.Proofs.Disassembly
import FreshLocal.Proofs.PlacedBody
import FreshLocal.Proofs.TableBytes

/-!
# Bodies that can be stored

The events of a body that was read, and those that the injection makes of them,
can be stored: jumps go to operations, lines and frames stand before one, names
fit into constants, and ranges do not end before they start.

* `BodyEvent.Storable`: an event that can be stored, given the places of labels.
* `BodyEvent.table?`, `attributeCount`: the attributes that a body has once it is stored.
* `BodyEvent.StorableAll`: **a body that can be stored**.
* `BodyEvent.Bounded`: a body whose tables have lengths of 16 bits.
-/

namespace FreshLocal

/-- The names of the attributes that are tables. -/
def CodePart.tableNames : List String :=
  [StackMapFrame.tableName, LineNumber.tableName, VariableEntry.tableName false,
    VariableEntry.tableName true, AnnotatedType.tableName true, AnnotatedType.tableName false]

/-- Does a name that the type has fit into a constant? -/
def VerificationType.ShortName {π : Type} : VerificationType String π → Prop
  | object name => ShortText name
  | _ => True

/-- Do the names in a frame fit into constants? -/
def Frame.ShortNames {π : Type} (f : Frame String π) : Prop := ∀ t ∈ f.types, t.ShortName

theorem Frame.shortNames_map {π π' : Type} {f : π → π'} {x : Frame String π} (h : x.ShortNames) :
    (x.map id f).ShortNames := by
  intro t ht
  rw [types_map] at ht
  obtain ⟨t', ht', rfl⟩ := List.mem_map.1 ht
  have hshort := h t' ht'
  cases t' <;> exact hshort

theorem Operation.fits_map {π π' : Type} (f : π → π') (op : Operation π) :
    (op.map f).Fits ↔ op.Fits := by
  cases op with
  | plain i => exact Iff.rfl
  | branch b => exact b.fits_map f

/-- An annotation can still be written where the order of its positions is kept. -/
theorem AnnotatedType.fits_of_map {π π' π'' : Type} [LE π'] [LE π''] {f : π → π'} {g : π → π''}
    {a : AnnotatedType π}
    (hfg : ∀ x ∈ a.target.positions, ∀ y ∈ a.target.positions, f x ≤ f y → g x ≤ g y)
    (h : (a.map f).Fits) : (a.map g).Fits := by
  obtain ⟨visible, target, path, body⟩ := a
  refine ⟨?_, h.path, h.body⟩
  have htarget := h.target
  cases target with
  | localVariable isResource ranges =>
    refine ⟨by simpa using htarget.1, fun r' hr' => ?_⟩
    obtain ⟨r, hr, rfl⟩ := List.mem_map.1 hr'
    have hmem : ∀ x ∈ [r.start, r.stop],
        x ∈ (AnnotationTarget.localVariable isResource ranges).positions :=
      fun x hx => List.mem_flatMap.2 ⟨r, hr, hx⟩
    exact hfg _ (hmem _ (by simp)) _ (hmem _ (by simp))
      (htarget.2 ⟨f r.start, f r.stop, r.slot⟩ (List.mem_map.2 ⟨r, hr, rfl⟩))
  | handler index => trivial
  | instruction kind at_ => exact htarget
  | typeArgument kind at_ index => exact htarget

theorem AnnotatedType.fits_map {π π' : Type} [LE π] [LE π'] {f : π → π'} {a : AnnotatedType π}
    (hf : ∀ x ∈ a.target.positions, ∀ y ∈ a.target.positions, x ≤ y → f x ≤ f y) (h : a.Fits) :
    (a.map f).Fits := by
  refine AnnotatedType.fits_of_map (f := id) hf ?_
  obtain ⟨visible, target, path, body⟩ := a
  cases target <;> simpa [map, AnnotationTarget.map] using h

/-- Is the attribute none of the tables? -/
def ConstantPool.NamesOther (pool : ConstantPool) (a : Attribute) : Prop :=
  ∃ name, pool.utf8 a.name = .ok name ∧ name ∉ CodePart.tableNames

namespace BodyEvent

/-- The name of the table that an event belongs to. -/
def table? : BodyEvent → Option String
  | frame _ => some StackMapFrame.tableName
  | lineNumber _ _ => some LineNumber.tableName
  | localVariable isGeneric _ => some (VariableEntry.tableName isGeneric)
  | annotatedType a => some (AnnotatedType.tableName a.visible)
  | _ => none

theorem mem_tableNames {e : BodyEvent} {name : String} (h : e.table? = some name) :
    name ∈ CodePart.tableNames := by
  cases e with
  | localVariable isGeneric v => cases h; cases isGeneric <;> decide
  | annotatedType a =>
    cases h
    cases a.visible <;> decide
  | frame _ | lineNumber _ _ => cases h; decide
  | _ => cases h

/-- How many attributes a body with these events has. -/
def attributeCount (events : List BodyEvent) : Nat :=
  (CodePart.tableNames.filter (· ∈ events.filterMap table?)).length +
    (events.filterMap attribute?).length

/-- Can an event be stored that stands behind `k` operations of a body with `n` operations? The
function gives the places of labels. -/
def Storable (pool : ConstantPool) (n : Nat) (place : Label → Option Nat) (k : Nat) :
    BodyEvent → Prop
  | operation op => op.Fits ∧ ∀ l ∈ op.targets, ∃ j < n, place l = some j
  | frame f => k < n ∧ f.ShortNames ∧ ∀ l ∈ f.positions, (place l).isSome
  | lineNumber _ l => k < n ∧ place l = some k
  | handler h => h.Fits ∧ ∀ l ∈ h.positions, (place l).isSome
  | localVariable _ v => (place v.start).isSome ∧ (place v.stop).isSome
  | annotatedType a =>
    (a.map fun l => (place l).getD 0).Fits ∧ ∀ l ∈ a.target.positions, (place l).isSome
  | «attribute» a => a.Fits ∧ pool.NamesOther a
  | _ => True

/-- **A body that can be stored.** -/
structure StorableAll (pool : ConstantPool) (events : List BodyEvent) : Prop where
  each : ∀ x ∈ numbered 0 events,
    x.2.Storable pool (operations events).length (fun l => placeOf l events) x.1
  count : attributeCount events ≤ 65535
  /-- The limits of the body are sent. -/
  limits : events.filterMap limits? ≠ []

/-- A body whose tables and frames are not longer than 16 bits can say. -/
structure Bounded (events : List BodyEvent) : Prop where
  handlers : (events.filterMap handler?).length ≤ 65535
  tables : ∀ name, (events.filter (·.table? = some name)).length ≤ 65535
  frames : ∀ locals stack, .frame (.full locals stack) ∈ events →
    locals.length ≤ 65535 ∧ stack.length ≤ 65535

variable {pool pool' : ConstantPool} {n k : Nat} {place : Label → Option Nat} {e : BodyEvent}
  {events : List BodyEvent}

/-- A short body has short tables. -/
theorem bounded_of_length (hlength : events.length ≤ 65535)
    (hframes : ∀ locals stack, .frame (.full locals stack) ∈ events →
      locals.length ≤ 65535 ∧ stack.length ≤ 65535) : Bounded events :=
  ⟨(List.length_filterMap_le _ _).trans hlength,
    fun _ => (List.length_filter_le _ _).trans hlength, hframes⟩

/-- Each label of an event that can be stored has a place. -/
theorem Storable.isSome (h : e.Storable pool n place k) : ∀ l ∈ e.references, (place l).isSome := by
  intro l hl
  cases e with
  | operation op =>
    obtain ⟨j, -, hj⟩ := h.2 l hl
    rw [hj]; rfl
  | frame f => exact h.2.2 l hl
  | lineNumber line l' =>
    rw [List.mem_singleton.1 hl, h.2]; rfl
  | handler x => exact h.2 l hl
  | localVariable g v =>
    simp only [references, List.mem_cons, List.not_mem_nil, or_false] at hl
    obtain rfl | rfl := hl
    · exact h.1
    · exact h.2
  | annotatedType a => exact h.2 l hl
  | _ => cases hl

/-- What an attribute stands for does not change when the pool grows. -/
theorem Storable.grows (h : e.Storable pool n place k) (hpool : pool.Grows pool') :
    e.Storable pool' n place k := by
  cases e with
  | «attribute» a =>
    obtain ⟨hfits, name, hname, hother⟩ := h
    exact ⟨hfits, name, hpool.utf8 hname, hother⟩
  | _ => exact h

theorem StorableAll.grows (h : StorableAll pool events) (hpool : pool.Grows pool') :
    StorableAll pool' events :=
  ⟨fun x hx => (h.each x hx).grows hpool, h.count, h.limits⟩

/-- An event of a body that can be stored. -/
theorem StorableAll.storable (h : StorableAll pool events) (he : e ∈ events) :
    ∃ k, e.Storable pool (operations events).length (fun l => placeOf l events) k := by
  rw [← map_snd_numbered 0 events] at he
  obtain ⟨x, hx, rfl⟩ := List.mem_map.1 he
  exact ⟨x.1, h.each x hx⟩

/-- **Each label of a body that can be stored** has a place. -/
theorem StorableAll.isSome (h : StorableAll pool events) (he : e ∈ events) {l : Label}
    (hl : l ∈ e.references) : (placeOf l events).isSome := by
  obtain ⟨k, hk⟩ := h.storable he
  exact hk.isSome l hl

/-- **A body that can be stored has a content.** -/
theorem StorableAll.ofEvents? (h : StorableAll pool events) :
    PlacedBody.ofEvents? events =
      some (PlacedBody.ofEvents (fun l => (placeOf l events).getD 0) events) := by
  refine PlacedBody.ofEvents?_eq_some _ fun e he l hl => ?_
  obtain ⟨j, hj⟩ := Option.isSome_iff_exists.1 (h.isSome he hl)
  rw [hj, Option.getD_some]

end BodyEvent

end FreshLocal
