import FreshLocal.Proofs.BodyReading
import FreshLocal.Proofs.StorableInjection

/-!
# Bodies that keep to the rules

Whoever takes the events of a body relies on three rules about its labels: each
is placed once at most, each that an event refers to is placed, and no variable
ends before it starts. A fourth rule is about frames: one that removes or adds
locals does so with one to three of them.

The reader keeps these rules, since it makes the labels itself, and the injection
does too: it places no label and removes none, and the labels in a frame that is
spelled out are from frames before it.

* `BodyEvent.Proper`: **the rules** about the labels of a whole body.
* `Frame.Legal`: the rule about a frame.
* `Body.Readable.proper`: the events of a body that was read keep them.
* `MethodInjection.proper_run`: so do those that the injection makes of them.
-/

namespace FreshLocal

/-! ## Frames -/

namespace Frame

variable {κ π κ' π' : Type}

/-- A frame that removes or adds locals does so with one to three of them. -/
def Legal : Frame κ π → Prop
  | chop count => 1 ≤ count ∧ count ≤ 3
  | append more => 1 ≤ more.length ∧ more.length ≤ 3
  | _ => True

theorem Fits.legal {f : Frame κ π} (h : f.Fits) : f.Legal := by
  cases f with
  | chop count | append more => exact h
  | _ => trivial

theorem Legal.map {f : Frame κ π} (h : f.Legal) (onClass : κ → κ') (onMade : π → π') :
    (f.map onClass onMade).Legal := by
  cases f with
  | append more => simpa [Frame.map, Legal] using h
  | chop count => exact h
  | _ => trivial

end Frame

/-- **A frame that is carried over** is sent as it is or spelled out. -/
theorem Allocator.legal_takeFrame {a : Allocator} {f f' : CodeFrame} (hf : f.Legal)
    (h : (a.takeFrame f).2 = .ok f') : f'.Legal := by
  cases a with
  | extension x => cases h; exact hf
  | insertion p =>
    simp only [takeFrame, Insertion.takeFrame] at h
    split at h
    · rename_i carried locals hcarry
      cases h
      unfold Insertion.carry at hcarry
      split at hcarry
      · cases hcarry
      · split at hcarry
        · cases hcarry
        · split at hcarry
          · cases hcarry; exact hf
          · split at hcarry
            · cases hcarry
            · cases hcarry; trivial
    · cases h

/-! ## Labels -/

namespace BodyEvent

variable {events sent : List BodyEvent} {e e' : BodyEvent} {a : Allocator}

/-- The label that an event places. -/
def label? : BodyEvent → Option Label
  | label l => some l
  | _ => none

/-- **The labels of a body keep to the rules.** -/
structure Proper (events : List BodyEvent) : Prop where
  once : (events.filterMap label?).Nodup
  placed : ∀ e ∈ events, ∀ l ∈ e.references, (placeOf l events).isSome
  ordered : ∀ generic v, .localVariable generic v ∈ events →
    ∃ j k, placeOf v.start events = some j ∧ placeOf v.stop events = some k ∧ j ≤ k

/-- A method without a body has no labels. -/
theorem proper_nil : Proper [] :=
  ⟨List.nodup_nil, fun _ he => (List.not_mem_nil he).elim,
    fun _ _ hv => (List.not_mem_nil hv).elim⟩

theorem mem_labels {l : Label} : l ∈ events.filterMap label? ↔ .label l ∈ events := by
  rw [List.mem_filterMap]
  refine ⟨fun ⟨e, he, hp⟩ => ?_, fun h => ⟨_, h, rfl⟩⟩
  cases e <;> cases hp
  exact he

/-- A label has a place if it is placed. -/
theorem isSome_placeOf {l : Label} : (placeOf l events).isSome ↔ .label l ∈ events := by
  induction events with
  | nil => simp [placeOf]
  | cons e rest ih =>
    cases e with
    | label l' =>
      rw [placeOf]
      by_cases hll' : l' = l
      · simp [hll']
      · simp [if_neg hll', ih, Ne.symm hll']
    | _ => simp [placeOf, ih]

theorem Carried.label? (h : e.Carried a e') : e'.label? = e.label? := by
  obtain ⟨-, -, -, -, hlabel⟩ := h.same
  cases he : e.label? with
  | some l =>
    have hel : e = .label l := by cases e <;> cases he; rfl
    rw [(hlabel l).2 hel]
    rfl
  | none =>
    cases e' with
    | label l =>
      rw [(hlabel l).1 rfl] at he
      cases he
    | _ => rfl

/-- The labels that are placed are sent on. -/
theorem labels_carried {R : Allocator → Prop}
    (h : List.Forall₂ (fun e e' => ∃ a, R a ∧ e.Carried a e') events sent) :
    sent.filterMap BodyEvent.label? = events.filterMap BodyEvent.label? := by
  induction h with
  | nil => rfl
  | cons hfirst _ ih =>
    obtain ⟨a, -, hfirst⟩ := hfirst
    rw [List.filterMap_cons, List.filterMap_cons, hfirst.label?, ih]

/-- A variable that is sent on keeps its range. -/
theorem Carried.of_localVariable {generic : Bool} {v' : LocalVariable}
    (h : e.Carried a (.localVariable generic v')) :
    ∃ v, e = .localVariable generic v ∧ v'.start = v.start ∧ v'.stop = v.stop := by
  cases e with
  | localVariable g v =>
    obtain ⟨slot, -, heq⟩ := h
    cases heq
    exact ⟨v, rfl, rfl, rfl⟩
  | operation op => obtain ⟨op', -, heq⟩ := h; cases heq
  | annotatedType x => obtain ⟨x', -, heq⟩ := h; cases heq
  | frame f => obtain ⟨f', -, heq⟩ := h; cases heq
  | limits s l => obtain ⟨n, -, heq⟩ := h; cases heq
  | start _ _ | label _ | lineNumber _ _ | handler _ | «attribute» _ => cases h

/-- What is true of the labels in an event and of those that the allocator may bring into a frame
is true of the labels in the event that is sent on. -/
theorem Carried.references {P : Label → Prop} (ha : a.AllTypes fun t => ∀ l ∈ t.position?, P l)
    (h : e.Carried a e') (he : ∀ l ∈ e.references, P l) : ∀ l ∈ e'.references, P l := by
  cases e with
  | operation op =>
    obtain ⟨op', hop, rfl⟩ := h
    obtain ⟨htargets, -⟩ := mapSlotM_eq_ok hop
    rw [BodyEvent.references, htargets]
    exact he
  | frame f =>
    obtain ⟨f', hf', rfl⟩ := h
    have htypes : ∀ t ∈ f.types, ∀ l ∈ t.position?, P l := fun t ht l hl =>
      he l (List.mem_filterMap.2 ⟨t, ht, hl⟩)
    intro l hl
    obtain ⟨t, ht, hl⟩ := List.mem_filterMap.1 hl
    exact (Allocator.takeFrame_types (fun l hl => by cases hl) ha htypes).2 f' hf' t ht l hl
  | localVariable generic v => obtain ⟨slot, -, rfl⟩ := h; exact he
  | annotatedType x =>
    obtain ⟨x', hx, rfl⟩ := h
    obtain ⟨-, hpositions, -⟩ := AnnotatedType.mapSlotsM_eq_ok hx
    rw [BodyEvent.references, hpositions]
    exact he
  | limits s l => obtain ⟨n, -, rfl⟩ := h; exact he
  | start _ _ | label _ | lineNumber _ _ | handler _ | «attribute» _ => cases h; exact he

theorem Carried.legal (hf : ∀ f, e = .frame f → f.Legal) (h : e.Carried a e') :
    ∀ f, e' = .frame f → f.Legal := by
  rintro f' rfl
  cases e with
  | frame f =>
    obtain ⟨f'', hf'', heq⟩ := h
    cases heq
    exact Allocator.legal_takeFrame (hf f rfl) hf''
  | operation op => obtain ⟨op', -, heq⟩ := h; cases heq
  | localVariable generic v => obtain ⟨slot, -, heq⟩ := h; cases heq
  | annotatedType x => obtain ⟨x', -, heq⟩ := h; cases heq
  | limits s l => obtain ⟨n, -, heq⟩ := h; cases heq
  | start _ _ | label _ | lineNumber _ _ | handler _ | «attribute» _ => cases h

end BodyEvent

open BodyEvent

/-! ## Bodies that are read -/

namespace Body

variable {b : Body} {pool : ConstantPool} {attached : List Attached}

/-- Each frame that is sent is one of the body, also where a later one stands before no
instruction. -/
theorem mem_frames_of_events {f : CodeFrame} (h : .frame f ∈ b.events.1) :
    ∃ x ∈ b.frames, f = x.2.map id fun o => b.label o.toNat := by
  obtain ⟨attached, left, hattached, -, hframes⟩ := attachFrames_eq b.operations b.frames
  have hfirst : .frame f ∉ firstEvents b.label b := by simp [firstEvents]
  have hlast : .frame f ∉ lastEvents b.label b b.labels := by simp [lastEvents]
  have hmem : .frame f ∈ attached.flatMap b.eventsAt := by
    unfold events at h
    simp only [hattached] at h
    split at h
    · exact (List.mem_append.1 h).resolve_left hfirst
    · exact (List.mem_append.1 ((List.mem_append.1 h).resolve_right hlast)).resolve_left hfirst
  obtain ⟨x, hx, hfx⟩ := List.mem_flatMap.1 hmem
  obtain heq | ⟨l, -, -, heq⟩ | ⟨g, hg, heq⟩ | heq := mem_eventsAt hfx
  · cases heq
  · cases heq
  · cases heq
    refine ⟨(x.1, g), ?_, rfl⟩
    rw [← hframes]
    exact List.mem_append_left _ (List.mem_flatMap.2 ⟨x, hx, List.mem_map_of_mem hg⟩)
  · cases heq

/-- **The frames of a body that was read** are legal. -/
theorem Readable.legal (hb : b.Readable pool) {f : CodeFrame} (h : .frame f ∈ b.events.1) :
    f.Legal := by
  obtain ⟨x, hx, rfl⟩ := mem_frames_of_events h
  exact (hb.frames x hx).2.legal.map _ _

/-- The labels in the order in which they are placed. -/
theorem labels_events : (b.eventsWith attached).filterMap BodyEvent.label? =
    ((attached.map Prod.fst ++ [b.length]).filter (· ∈ b.references)).map b.label := by
  -- a label is sent at each offset that something refers to, and at no other
  have hone : ∀ o, (if o ∈ b.references then [BodyEvent.label (b.label o)] else []).filterMap
      BodyEvent.label? = ([o].filter (· ∈ b.references)).map b.label := by
    intro o
    by_cases ho : o ∈ b.references
    · simp [ho, BodyEvent.label?]
    · simp [ho]
  have hat : ∀ x, (b.eventsAt x).filterMap BodyEvent.label? =
      ([x.1].filter (· ∈ b.references)).map b.label := by
    intro x
    rw [eventsAt_eq, List.filterMap_append, hone]
    simp [List.filterMap_map, Function.comp_def, BodyEvent.label?]
  have hlast : (lastEvents b.label b b.labels).filterMap BodyEvent.label? =
      ([b.length].filter (· ∈ b.references)).map b.label := by
    rw [lastEvents_eq]
    simp only [List.filterMap_append, hone]
    simp [List.filterMap_map, Function.comp_def, BodyEvent.label?]
  have hfirst : (firstEvents b.label b).filterMap BodyEvent.label? = [] := by
    rw [firstEvents_eq]
    simp [BodyEvent.label?]
  have hattached : (attached.flatMap b.eventsAt).filterMap BodyEvent.label? =
      ((attached.map Prod.fst).filter (· ∈ b.references)).map b.label := by
    induction attached with
    | nil => rfl
    | cons x rest ih =>
      rw [List.flatMap_cons, List.filterMap_append, hat, ih, ← List.map_append,
        ← List.filter_append]
      rfl
  rw [eventsWith, List.filterMap_append, List.filterMap_append, hfirst, hattached, hlast,
    List.nil_append, ← List.map_append, ← List.filter_append]

/-- **The labels of a body that was read** keep to the rules. -/
theorem Sound.proper (hb : b.Sound) (h : b.events.2 = none) : Proper b.events.1 := by
  obtain ⟨attached, hops, hframes, hevents⟩ := events_eq_of_none h
  have hplaceOf := fun o (ho : o ∈ b.references) => placeOf_label hb h ho
  have hstarts := map_fst_attached hops
  rw [hevents] at hplaceOf ⊢
  refine ⟨?_, fun e he l hl => ?_, fun generic v hv => ?_⟩
  · -- each label is that of its own offset, and offsets come in their order
    rw [labels_events, hstarts]
    have hnodup : (b.starts ++ [b.length]).Nodup := by
      refine List.Nodup.append (hb.ascending.imp Nat.ne_of_lt) (List.nodup_singleton _) ?_
      intro o ho ho'
      rw [List.mem_singleton.1 ho'] at ho
      exact absurd (hb.inside _ ho) (Nat.lt_irrefl _)
    refine List.Nodup.map_on (fun o ho o' ho' heq => ?_) (hnodup.filter _)
    exact label_inj (by simpa using (List.mem_filter.1 ho).2)
      (by simpa using (List.mem_filter.1 ho').2) heq
  · obtain ⟨o, ho, rfl⟩ := references_events hops hframes e he l hl
    rw [hplaceOf o ho]
    rfl
  · -- a variable of the body has a start and a length, and places are in the order of offsets
    have hmem := mem_locals.2 hv
    rw [locals_events] at hmem
    obtain ⟨entry, hentry, rfl⟩ := List.mem_map.1 hmem
    have hlocal : entry ∈ b.locals ++ b.genericLocals := by
      rw [List.mem_append]
      cases generic with
      | false => exact .inl hentry
      | true => exact .inr hentry
    obtain ⟨hstart, hstop⟩ := local_mem hlocal
    exact ⟨_, _, hplaceOf _ hstart, hplaceOf _ hstop, hb.place_le hstart (Nat.le_add_right _ _)⟩

end Body

/-! ## Bodies that are sent on -/

namespace MethodInjection

variable {options : Options} {m : DeclaredMethod} {j : MethodInjection}
  {maxStack maxLocals : UInt16} {events sent : List BodyEvent}

/-- **The injection keeps the rules** about the labels of a body. -/
theorem proper_run (hevents : ∀ e ∈ events, ¬ e.IsStart)
    (hproper : Proper (.start maxStack maxLocals :: events))
    (h : Stage.run step (.ofAllocator (options.allocator m)) (.start maxStack maxLocals :: events) =
      (j, sent, none)) : Proper sent := by
  obtain ⟨fresh, a, behind, ha, hrun, rfl⟩ := run_start h
  let Placed := fun l => (placeOf l events).isSome
  -- a frame that is spelled out has labels of frames before it; to begin with there is none
  have htypes : a.AllTypes fun t => ∀ l ∈ t.position?, Placed l := by
    refine options.allocate_types (fun _ t ht l hl => ?_) (fun l hl => by cases hl) ha
    rw [m.position?_implicit t ht] at hl
    cases hl
  have hreferences : ∀ e ∈ events, ∀ l ∈ e.references, Placed l := fun e he =>
    hproper.placed e (List.mem_cons_of_mem _ he)
  obtain ⟨-, -, hcarried⟩ := run_carried
    (P := fun a => a.AllTypes fun t => ∀ l ∈ t.position?, Placed l) hevents
    (fun a f hf ha => (Allocator.takeFrame_types (fun l hl => by cases hl) ha
      fun t ht l hl => hreferences _ hf l (List.mem_filterMap.2 ⟨t, ht, hl⟩)).1) htypes hrun
  obtain ⟨hplace, -⟩ := carried_same (d := 2) (fun _ _ ⟨_, _, h⟩ => h.same) hcarried
  -- the two instructions behind the start move every place by two
  have hshift : ∀ l, placeOf l (.start maxStack maxLocals ::
      .operation (.plain (.nullary .iconstM1)) ::
        .operation (.plain (.store .int fresh)) :: behind) =
      (placeOf l events).map (· + 2) := by
    intro l
    simp only [placeOf, hplace, Option.map_map]
    rfl
  refine ⟨?_, fun e' he' l hl => ?_, fun generic v' hv' => ?_⟩
  · have honce : (events.filterMap label?).Nodup := hproper.once
    rw [← labels_carried hcarried] at honce
    exact honce
  · rw [hshift, Option.isSome_map]
    simp only [List.mem_cons] at he'
    obtain rfl | rfl | rfl | he' := he'
    · cases hl
    · cases hl
    · cases hl
    · obtain ⟨e, he, a, ha, hcarried⟩ := exists_of_mem_right hcarried he'
      exact hcarried.references ha (hreferences e he) l hl
  · simp only [List.mem_cons, reduceCtorEq, false_or] at hv'
    obtain ⟨e, he, a, -, hcarried⟩ := exists_of_mem_right hcarried hv'
    obtain ⟨v, rfl, hstart, hstop⟩ := hcarried.of_localVariable
    obtain ⟨j, k, hj, hk, hle⟩ := hproper.ordered generic v (List.mem_cons_of_mem _ he)
    have hj' : placeOf v.start events = some j := hj
    have hk' : placeOf v.stop events = some k := hk
    refine ⟨j + 2, k + 2, ?_, ?_, by omega⟩
    · rw [hshift, hstart, hj']; rfl
    · rw [hshift, hstop, hk']; rfl

end MethodInjection

end FreshLocal
