import FreshLocal.Proofs.Relocation
import FreshLocal.Proofs.StorableBody

/-!
# The injection keeps a body storable

The injection puts two instructions in front of a body and sends its events on
one by one, so a place moves on by two. A frame that is spelled out lists types
of frames before it, of the arguments and of the new variable.

* `Insertion.AllTypes`, `Insertion.carry_types`: **the types that a frame may get**.
* `BodyEvent.Carried.storable`: one event.
* `MethodInjection.storableAll_run`: **a whole body**.
-/

namespace FreshLocal

/-- Is the condition true of each type that the new slots may bring into a frame? -/
structure Insertion.AllTypes (P : CodeType → Prop) (p : Insertion) : Prop where
  implicit : ∀ t ∈ p.implicit, P t
  inserted : ∀ t ∈ p.inserted, P t
  previous : ∀ ts, p.previous = some ts → ∀ t ∈ ts, P t

/-- Is the condition true of each type that the allocator may bring into a frame? -/
def Allocator.AllTypes (P : CodeType → Prop) : Allocator → Prop
  | insertion p => p.AllTypes P
  | extension _ => True

section Types

variable {P : CodeType → Prop} {p : Insertion} {f f' : CodeFrame} {locals : List CodeType}

theorem mem_insertLocals {boundary : Nat} {inserted out : List CodeType}
    (h : insertLocals boundary inserted locals = .ok out) {t : CodeType} (ht : t ∈ out) :
    t = .top ∨ t ∈ inserted ∨ t ∈ locals := by
  obtain ⟨⟨n, missing⟩, -, h⟩ := Except.bind_eq_ok.1 h
  cases h
  simp only [List.mem_append] at ht
  rcases ht with ((ht | ht) | ht) | ht
  · exact .inr (.inr (List.mem_of_mem_take ht))
  · exact .inl (List.eq_of_mem_replicate ht)
  · exact .inr (.inl ht)
  · exact .inr (.inr (List.mem_of_mem_drop ht))

theorem Frame.all_locals? {before : List CodeType} (hbefore : ∀ t ∈ before, P t)
    (hf : ∀ t ∈ f.types, P t) (h : f.locals? before = some locals) : ∀ t ∈ locals, P t := by
  cases f with
  | same | sameOne _ => cases h; exact hbefore
  | chop count =>
    simp only [locals?, Option.ite_none_right_eq_some, Option.some.injEq] at h
    obtain ⟨-, rfl⟩ := h
    exact fun t ht => hbefore t (List.mem_of_mem_take ht)
  | append more =>
    cases h
    intro t ht
    obtain ht | ht := List.mem_append.1 ht
    · exact hbefore t ht
    · exact hf t ht
  | full locals' stack =>
    cases h
    exact fun t ht => hf t (List.mem_append_left _ ht)

/-- **The types of a frame that is carried over** are those that were known or that it had. -/
theorem Insertion.carry_types (htop : P .top) (hp : p.AllTypes P) (hf : ∀ t ∈ f.types, P t)
    (h : p.carry f = .ok (f', locals)) : (∀ t ∈ f'.types, P t) ∧ ∀ t ∈ locals, P t := by
  have hbefore : ∀ t ∈ p.before, P t := by
    intro t ht
    unfold before at ht
    rcases hprevious : p.previous with _ | ts
    · rw [hprevious] at ht; exact hp.implicit t ht
    · rw [hprevious] at ht; exact hp.previous ts hprevious t ht
  unfold carry at h
  split at h
  · cases h
  · rename_i found hfound
    have hlocals := Frame.all_locals? hbefore hf hfound
    split at h
    · cases h
    · rename_i widened hwidened
      split at h
      · cases h; exact ⟨hf, hlocals⟩
      · split at h
        · cases h
        · cases h
          refine ⟨fun t ht => ?_, hlocals⟩
          obtain ht | ht := List.mem_append.1 ht
          · obtain rfl | ht | ht := mem_insertLocals hwidened ht
            · exact htop
            · exact hp.inserted t ht
            · exact hlocals t ht
          · have hstack : ∀ t ∈ f.stack, t ∈ f.types := by
              cases f <;> simp [Frame.stack, Frame.types]
              exact fun t ht => .inr ht
            exact hf t (hstack t ht)

theorem Allocator.takeFrame_types {a : Allocator} (htop : P .top) (ha : a.AllTypes P)
    (hf : ∀ t ∈ f.types, P t) : (a.takeFrame f).1.AllTypes P ∧
      ∀ f', (a.takeFrame f).2 = .ok f' → ∀ t ∈ f'.types, P t := by
  cases a with
  | extension x =>
    refine ⟨trivial, fun f' h => ?_⟩
    cases h
    exact hf
  | insertion p =>
    rcases hc : p.carry f with fault | ⟨carried, locals⟩
    · simp only [takeFrame, Insertion.takeFrame, hc]
      exact ⟨⟨ha.implicit, ha.inserted, fun ts h => by cases h⟩, fun f' h => by cases h⟩
    · obtain ⟨hcarried, hlocals⟩ := Insertion.carry_types htop ha hf hc
      simp only [takeFrame, Insertion.takeFrame, hc]
      refine ⟨⟨ha.implicit, ha.inserted, fun ts h => ?_⟩, fun f' h => ?_⟩
      · cases h; exact hlocals
      · cases h; exact hcarried

end Types

/-- Other slots change nothing about the positions of an annotation. -/
theorem AnnotatedType.mapSlotsM_eq_ok {π : Type} {slot : UInt16 → Except Fault UInt16}
    {a a' : AnnotatedType π} (h : a.mapSlotsM slot = .ok a') :
    a'.visible = a.visible ∧ a'.target.positions = a.target.positions ∧
      ∀ f : π → Nat, (a.map f).Fits → (a'.map f).Fits := by
  obtain ⟨visible, target, path, body⟩ := a
  obtain ⟨target', htarget, h⟩ := Except.bind_eq_ok.1 h
  cases h
  refine ⟨rfl, ?_⟩
  cases target with
  | localVariable isResource ranges =>
    obtain ⟨ranges', hranges, rfl⟩ := Except.map_eq_ok.1 htarget
    have hsame :
        ranges'.map (fun r => (r.start, r.stop)) = ranges.map fun r => (r.start, r.stop) := by
      rw [mapM_eq_ok] at hranges
      rw [← List.forall₂_eq_eq_eq, List.forall₂_map_left_iff, List.forall₂_map_right_iff]
      refine (List.Forall₂.flip hranges).imp fun r' r hr => ?_
      obtain ⟨slot', -, hr⟩ := Except.bind_eq_ok.1 hr
      cases hr
      rfl
    refine ⟨?_, fun f hfits => ⟨⟨?_, fun r hr => ?_⟩, hfits.path, hfits.body⟩⟩
    · have hpositions : ∀ rs : List (LocalRange π), rs.flatMap (fun r => [r.start, r.stop]) =
          (rs.map fun r => (r.start, r.stop)).flatMap fun x => [x.1, x.2] := fun rs => by
        rw [List.flatMap_map]
      simp only [AnnotationTarget.positions, hpositions, hsame]
    · have hlength := congrArg List.length hsame
      rw [List.length_map, List.length_map] at hlength
      rw [List.length_map, hlength]
      simpa [map, AnnotationTarget.map] using hfits.target.1
    · obtain ⟨r', hr', rfl⟩ := List.mem_map.1 hr
      have hmem : (r'.start, r'.stop) ∈ ranges.map fun r => (r.start, r.stop) := by
        rw [← hsame]; exact List.mem_map.2 ⟨r', hr', rfl⟩
      obtain ⟨r, hr, heq⟩ := List.mem_map.1 hmem
      have hle := hfits.target.2 ⟨f r.start, f r.stop, r.slot⟩ (List.mem_map.2 ⟨r, hr, rfl⟩)
      obtain ⟨hstart, hstop⟩ := Prod.mk.inj heq
      change f r.start ≤ f r.stop at hle
      rwa [hstart, hstop] at hle
  | _ => cases htarget; exact ⟨rfl, fun _ h => h⟩

namespace BodyEvent

/-- Is the type one that a frame of a body can have, if the function gives the places of labels? -/
def GoodType (place : Label → Option Nat) (t : CodeType) : Prop :=
  t.ShortName ∧ ∀ l ∈ t.position?, (place l).isSome

theorem goodTypes_iff {place : Label → Option Nat} {f : CodeFrame} :
    (∀ t ∈ f.types, GoodType place t) ↔ f.ShortNames ∧ ∀ l ∈ f.positions, (place l).isSome := by
  constructor
  · refine fun h => ⟨fun t ht => (h t ht).1, fun l hl => ?_⟩
    obtain ⟨t, ht, hl⟩ := List.mem_filterMap.1 hl
    exact (h t ht).2 l hl
  · exact fun h t ht => ⟨h.1 t ht, fun l hl => h.2 l (List.mem_filterMap.2 ⟨t, ht, hl⟩)⟩

variable {pool : ConstantPool} {n k : Nat} {place place' : Label → Option Nat} {a : Allocator}
  {e e' : BodyEvent} {events sent : List BodyEvent}

theorem mapSlotM_eq_ok {slot : UInt16 → Except Fault UInt16} {op op' : Operation Label}
    (h : op.mapSlotM slot = .ok op') : op'.targets = op.targets ∧ (op.Fits → op'.Fits) := by
  cases op with
  | plain i =>
    obtain ⟨i', -, rfl⟩ := Except.map_eq_ok.1 h
    exact ⟨rfl, fun _ => trivial⟩
  | branch b => cases h; exact ⟨rfl, fun h => h⟩

/-- **One event that is sent on** can be stored two operations further on. -/
theorem Carried.storable (hplace : ∀ l j, place l = some j → place' l = some (j + 2))
    (ha : a.AllTypes (GoodType place)) (h : e.Carried a e') (he : e.Storable pool n place k) :
    e'.Storable pool (n + 2) place' (k + 2) := by
  -- the place of a label moves, but it keeps one
  have hsome : ∀ l, (place l).isSome → (place' l).isSome := by
    intro l hl
    obtain ⟨j, hj⟩ := Option.isSome_iff_exists.1 hl
    rw [hplace l j hj]; rfl
  cases e with
  | operation op =>
    obtain ⟨op', hop, rfl⟩ := h
    obtain ⟨htargets, hfits⟩ := mapSlotM_eq_ok hop
    refine ⟨hfits he.1, fun l hl => ?_⟩
    rw [htargets] at hl
    obtain ⟨j, hj, hl⟩ := he.2 l hl
    exact ⟨j + 2, by omega, hplace l j hl⟩
  | frame f =>
    obtain ⟨f', hf', rfl⟩ := h
    have htypes := (Allocator.takeFrame_types (P := GoodType place) ⟨trivial, fun _ h => by cases h⟩
      ha (goodTypes_iff.2 he.2)).2 f' hf'
    obtain ⟨hnames, hpositions⟩ := goodTypes_iff.1 htypes
    have hk := he.1
    exact ⟨by omega, hnames, fun l hl => hsome l (hpositions l hl)⟩
  | lineNumber line l =>
    cases h
    have hk := he.1
    exact ⟨by omega, hplace l k he.2⟩
  | handler x => cases h; exact ⟨he.1, fun l hl => hsome l (he.2 l hl)⟩
  | localVariable g v =>
    obtain ⟨slot, -, rfl⟩ := h
    exact ⟨hsome _ he.1, hsome _ he.2⟩
  | annotatedType x =>
    obtain ⟨x', hx, rfl⟩ := h
    obtain ⟨-, hpositions, hfits⟩ := AnnotatedType.mapSlotsM_eq_ok hx
    refine ⟨hfits _ ?_, fun l hl => hsome l (he.2 l (hpositions ▸ hl))⟩
    have hshift : x.map (fun l => (place' l).getD 0) =
        (x.map fun l => (place l).getD 0).map (· + 2) := by
      rw [AnnotatedType.map_map]
      refine AnnotatedType.map_congr fun l hl => ?_
      obtain ⟨j, hj⟩ := Option.isSome_iff_exists.1 (he.2 l hl)
      rw [hplace l j hj, hj]
      rfl
    rw [hshift]
    exact AnnotatedType.fits_map (fun x _ y _ hle => Nat.add_le_add_right hle 2) he.1
  | «attribute» x => cases h; exact he
  | limits s l => obtain ⟨m, -, rfl⟩ := h; trivial
  | start _ _ | label _ => cases h; trivial

/-- What an event that is sent on has in common with the one it was. -/
theorem Carried.same (h : e.Carried a e') :
    e'.size = e.size ∧ e'.table? = e.table? ∧ e'.attribute? = e.attribute? ∧
      e'.limits?.isSome = e.limits?.isSome ∧ ∀ l, e' = .label l ↔ e = .label l := by
  cases e with
  | operation op => obtain ⟨op', -, rfl⟩ := h; simp [size, table?, attribute?, limits?]
  | localVariable g v => obtain ⟨slot, -, rfl⟩ := h; simp [size, table?, attribute?, limits?]
  | annotatedType x =>
    obtain ⟨x', hx, rfl⟩ := h
    obtain ⟨hvisible, -⟩ := AnnotatedType.mapSlotsM_eq_ok hx
    simp [size, table?, attribute?, limits?, hvisible]
  | frame f => obtain ⟨f', -, rfl⟩ := h; simp [size, table?, attribute?, limits?]
  | limits s l => obtain ⟨m, -, rfl⟩ := h; simp [size, table?, attribute?, limits?]
  | start _ _ | label _ | lineNumber _ _ | handler _ | «attribute» _ => cases h; simp

theorem Carried.not_isStart (h : e.Carried a e') (he : ¬ e.IsStart) : ¬ e'.IsStart := by
  cases e with
  | start _ _ => exact absurd trivial he
  | operation op => obtain ⟨op', -, rfl⟩ := h; exact id
  | localVariable g v => obtain ⟨slot, -, rfl⟩ := h; exact id
  | annotatedType x => obtain ⟨x', -, rfl⟩ := h; exact id
  | frame f => obtain ⟨f', -, rfl⟩ := h; exact id
  | limits s l => obtain ⟨m, -, rfl⟩ := h; exact id
  | label _ | lineNumber _ _ | handler _ | «attribute» _ => cases h; exact id

/-- What the events that are sent on have in common with those they were. -/
theorem carried_same {R : BodyEvent → BodyEvent → Prop} {d : Nat}
    (hR : ∀ e e', R e e' → e'.size = e.size ∧ e'.table? = e.table? ∧
      e'.attribute? = e.attribute? ∧ e'.limits?.isSome = e.limits?.isSome ∧
        ∀ l, e' = .label l ↔ e = .label l)
    (h : List.Forall₂ R events sent) :
    (∀ l, placeOf l sent = placeOf l events) ∧
      (operations sent).length = (operations events).length ∧
      sent.filterMap table? = events.filterMap table? ∧
      sent.filterMap attribute? = events.filterMap attribute? ∧
      (sent.filterMap limits?).length = (events.filterMap limits?).length ∧
      ∀ n, List.Forall₂ (fun x x' => x'.1 = x.1 + d ∧ R x.2 x'.2) (numbered n events)
        (numbered (n + d) sent) := by
  induction h with
  | nil => exact ⟨fun _ => rfl, rfl, rfl, rfl, rfl, fun _ => .nil⟩
  | @cons e e' events sent hee' _ ih =>
    obtain ⟨hplace, hlength, htables, hattributes, hlimits, hnumbered⟩ := ih
    obtain ⟨hsize, htable, hattribute, hlimit, hlabel⟩ := hR e e' hee'
    refine ⟨fun l => ?_, ?_, ?_, ?_, ?_, fun n => ?_⟩
    · have hcons : ∀ (e : BodyEvent) (rest : List BodyEvent), placeOf l (e :: rest) =
          if e = .label l then some 0 else (placeOf l rest).map (· + e.size) := by
        intro e rest
        cases e <;> simp [placeOf, size]
      rw [hcons, hcons, hplace, hsize]
      simp only [hlabel]
    · rw [length_operations_cons, length_operations_cons, hsize, hlength]
    · rw [List.filterMap_cons, List.filterMap_cons, htable, htables]
    · rw [List.filterMap_cons, List.filterMap_cons, hattribute, hattributes]
    · rw [List.length_filterMap_eq_countP, List.length_filterMap_eq_countP] at hlimits ⊢
      rw [List.countP_cons, List.countP_cons, hlimits, hlimit]
    · refine .cons ⟨rfl, hee'⟩ ?_
      rw [hsize, Nat.add_right_comm]
      exact hnumbered (n + e.size)

end BodyEvent

theorem FieldType.position?_localType (t : FieldType) :
    (t.localType : CodeType).position? = none := by
  unfold localType
  split <;> rfl

namespace DeclaredMethod

theorem position?_implicit (m : DeclaredMethod) : ∀ t ∈ m.implicit, t.position? = none := by
  intro t ht
  obtain ht | ht := List.mem_append.1 ht
  · split at ht
    · rw [List.mem_singleton.1 ht, receiver]
      split <;> rfl
    · cases ht
  · obtain ⟨x, -, rfl⟩ := List.mem_map.1 ht
    exact x.position?_localType

end DeclaredMethod

/-- What a frame may get from the new variable, and from the arguments if it stands behind them. -/
theorem Options.allocate_types (options : Options) {m : DeclaredMethod} {P : CodeType → Prop}
    {maxLocals fresh : UInt16} {a : Allocator}
    (hm : options.placement = .behindArguments → ∀ t ∈ m.implicit, P t) (hint : P .integer)
    (h : ((options.allocator m).begin maxLocals).allocate (.ofBase .int) = .ok (fresh, a)) :
    a.AllTypes P := by
  unfold allocator at h
  cases hp : options.placement with
  | behindArguments =>
    rw [hp] at h
    obtain ⟨⟨slot, p⟩, hallocate, h⟩ := Except.map_eq_ok.1 h
    cases h
    obtain ⟨-, -, rfl⟩ := Insertion.allocate_eq_ok.1 hallocate
    refine ⟨hm hp, fun t ht => ?_, fun ts h => by cases h⟩
    rw [List.mem_singleton.1 ht]
    exact hint
  | behindAll =>
    rw [hp] at h
    obtain ⟨⟨slot, x⟩, -, h⟩ := Except.map_eq_ok.1 h
    cases h
    trivial

namespace MethodInjection

open BodyEvent

/-- **The body that is sent on** can be stored if the one that was read can. -/
theorem storableAll_run {options : Options} {m : DeclaredMethod} {pool : ConstantPool}
    {j : MethodInjection} {maxStack maxLocals : UInt16} {events sent : List BodyEvent}
    (hm : ∀ t ∈ m.implicit, t.ShortName) (hevents : ∀ e ∈ events, ¬ e.IsStart)
    (hall : StorableAll pool (.start maxStack maxLocals :: events))
    (h : Stage.run step (.ofAllocator (options.allocator m)) (.start maxStack maxLocals :: events) =
      (j, sent, none)) :
    ∃ behind, sent = .start maxStack maxLocals :: behind ∧ (∀ e ∈ behind, ¬ e.IsStart) ∧
      StorableAll pool sent := by
  obtain ⟨fresh, a, behind, ha, hrun, rfl⟩ := run_start h
  let place := fun l => placeOf l (.start maxStack maxLocals :: events)
  -- the types that the allocator inserts are those of the arguments and of the new variable
  have htypes : a.AllTypes (GoodType place) := by
    refine options.allocate_types (fun _ t ht => ⟨hm t ht, fun l hl => ?_⟩)
      ⟨trivial, fun l hl => by cases hl⟩ ha
    rw [m.position?_implicit t ht] at hl
    cases hl
  have hframes : ∀ f, .frame f ∈ events → ∀ t ∈ f.types, GoodType place t := by
    intro f hf
    rw [← map_snd_numbered 0 events] at hf
    obtain ⟨x, hx, hxf⟩ := List.mem_map.1 hf
    have hstorable := hall.each x (List.mem_cons_of_mem _ hx)
    rw [hxf] at hstorable
    exact goodTypes_iff.2 hstorable.2
  obtain ⟨-, -, hcarried⟩ := run_carried (P := fun a => a.AllTypes (GoodType place)) hevents
    (fun a f hf ha => (Allocator.takeFrame_types ⟨trivial, fun _ h => by cases h⟩ ha
      (hframes f hf)).1) htypes hrun
  obtain ⟨hplace, hlength, htables, hattributes, hlimits, hnumbered⟩ :=
    carried_same (d := 2) (fun _ _ ⟨_, _, h⟩ => h.same) hcarried
  -- two operations are in front, and every place moves by two
  have hshift : ∀ l j, place l = some j → placeOf l (.start maxStack maxLocals ::
      .operation (.plain (.nullary .iconstM1)) ::
        .operation (.plain (.store .int fresh)) :: behind) = some (j + 2) := by
    intro l j hj
    have hbehind : placeOf l behind = some j := by rw [hplace]; exact hj
    simp [placeOf, hbehind]
  refine ⟨_, rfl, ?_, ⟨fun x hx => ?_, ?_, ?_⟩⟩
  · intro e' he'
    simp only [List.mem_cons] at he'
    obtain rfl | rfl | he' := he'
    · exact id
    · exact id
    · obtain ⟨e, he, a, -, hcarried⟩ := exists_of_mem_right hcarried he'
      exact hcarried.not_isStart (hevents e he)
  · simp only [numbered, size, List.mem_cons] at hx
    obtain rfl | rfl | rfl | hx := hx
    · trivial
    · exact ⟨trivial, fun l hl => by cases hl⟩
    · exact ⟨trivial, fun l hl => by cases hl⟩
    · obtain ⟨y, hy, hxy, b, hb, hcarried⟩ := exists_of_mem_right (hnumbered 0) hx
      have hstorable := hall.each y (List.mem_cons_of_mem _ hy)
      have hmoved := hcarried.storable hshift hb hstorable
      have hsent : (operations (.start maxStack maxLocals ::
          .operation (.plain (.nullary .iconstM1)) ::
            .operation (.plain (.store .int fresh)) :: behind)).length =
          (operations (.start maxStack maxLocals :: events)).length + 2 := by
        simp only [length_operations_cons, size, hlength]
        omega
      rw [hxy, hsent]
      exact hmoved
  · have hcount := hall.count
    simpa [attributeCount, List.filterMap_cons, table?, attribute?, htables,
      hattributes] using hcount
  · have hlimits' : events.filterMap limits? ≠ [] := hall.limits
    rw [← List.length_pos_iff] at hlimits' ⊢
    rwa [← hlimits] at hlimits'

end MethodInjection

end FreshLocal
