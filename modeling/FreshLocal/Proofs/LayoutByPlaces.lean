import FreshLocal.Proofs.StoredBody

/-!
# The layout by places

A label stands for a place, the number of operations before it. The layout of a
body is a function of its operations with their targets by places: where an
operation stands, whether its jump is wide, and the bytes of the code. What the
labels are called, and what stands between the operations, does not matter.

**Argument.** A round of the layout places the items, and only operations take
bytes, so the offset of a label is the offset of the operation at its place. A
jump is out of reach or not by these offsets, so the round does to the
operations what it does to the items. The rounds go on until no jump is out of
reach, which is seen from the operations as well.

* `FormedOperation.located`, `FormedOperation.stop`: operations in a row.
* `FormedOperation.settle`: the rounds of the layout, on operations.
* `Layout.settle_formed`: **the rounds on items** are those on operations.
* `Layout.of_places`: **the layout and its code** are functions of the operations by
  places.
-/

namespace FreshLocal

namespace Operation

variable {π π' : Type}

/-- The target of a jump that has a wide form. -/
def widenable? : Operation π → Option π
  | .branch (.goto target) | .branch (.jsr target) => some target
  | _ => none

theorem widenable?_map (f : π → π') (op : Operation π) :
    (op.map f).widenable? = op.widenable?.map f := by
  cases op with
  | plain i => rfl
  | branch b => cases b <;> rfl

end Operation

/-- An operation with its targets by places, and whether it has its wide form. -/
abbrev FormedOperation := Operation Nat × Bool

namespace FormedOperation

/-- Operations that stand in a row from the offset `o` on, with their offsets. -/
def located : (o : Nat) → List FormedOperation → List (Nat × FormedOperation)
  | _, [] => []
  | o, x :: rest => (o, x) :: located (o + x.1.width o x.2) rest

/-- The offset behind the last of them. -/
def stop : (o : Nat) → List FormedOperation → Nat
  | o, [] => o
  | o, x :: rest => stop (o + x.1.width o x.2) rest

/-- The offset of a place. -/
def offsetOf (xs : List FormedOperation) (place : Nat) : Nat :=
  ((located 0 xs).map Prod.fst)[place]?.getD (stop 0 xs)

/-- Is the operation a narrow jump that has to become wide? -/
def isTooFar (xs : List FormedOperation) (x : Nat × FormedOperation) : Bool :=
  !x.2.2 &&
    match x.2.1.widenable? with
    | none => false
    | some place => !isNear ((offsetOf xs place : Int) - x.1)

/-- Widen the jumps that are out of reach, for at most `rounds` rounds more. -/
def settle : (rounds : Nat) → List FormedOperation → List FormedOperation
  | 0, xs => xs
  | rounds + 1, xs =>
    if (located 0 xs).any (isTooFar xs) then
      settle rounds ((located 0 xs).map fun x => (x.2.1, x.2.2 || isTooFar xs x))
    else xs

/-- The forms that operations have in their layout. -/
def ofOperations (ops : List (Operation Nat)) : List FormedOperation :=
  settle (ops.countP (·.widenable?.isSome)) (ops.map (·, false))

/-- The bytes of operations in a row. -/
def code (xs : List FormedOperation) : Bytes :=
  (located 0 xs).flatMap fun x => (x.2.1.map (offsetOf xs)).encodeAt x.1 x.2.2

end FormedOperation

/-- An item with its targets by places, if it is an operation. -/
def BodyItem.formed? (place : Label → Nat) (x : BodyItem × Bool) : Option FormedOperation :=
  match x.1 with
  | .operation op => some (op.map place, x.2)
  | _ => none

namespace PlacedItem

/-- The form of an item, if it is an operation. -/
def formed? (place : Label → Nat) (p : PlacedItem) : Option FormedOperation :=
  BodyItem.formed? place (p.item, p.wide)

/-- An item with its offset, if it is an operation. -/
def located? (place : Label → Nat) (p : PlacedItem) : Option (Nat × FormedOperation) :=
  (p.formed? place).map (p.offset, ·)

end PlacedItem

/-! ## One round -/

namespace Laid

variable {o stop q : Nat} {ps : List PlacedItem} {l : Label} (place : Label → Nat)

/-- **Only operations take bytes.** -/
theorem located (h : Laid o ps stop) :
    ps.filterMap (·.located? place) =
        FormedOperation.located o (ps.filterMap (·.formed? place)) ∧
      stop = FormedOperation.stop o (ps.filterMap (·.formed? place)) := by
  induction ps generalizing o with
  | nil => exact ⟨rfl, h.symm⟩
  | cons p ps ih =>
    obtain ⟨rfl, hrest⟩ := h
    obtain ⟨hlocated, hstop⟩ := ih hrest
    cases hp : p.item with
    | operation op =>
      have hformed : p.formed? place = some (op.map place, p.wide) := by
        rw [PlacedItem.formed?, BodyItem.formed?, hp]
      have hsome : p.located? place = some (p.offset, op.map place, p.wide) := by
        rw [PlacedItem.located?, hformed]; rfl
      have hwidth : p.item.width p.offset p.wide = (op.map place).width p.offset p.wide := by
        rw [hp, Operation.width_map]
        cases op <;> rfl
      rw [hwidth] at hlocated hstop
      rw [List.filterMap_cons_some hformed, List.filterMap_cons_some hsome, hlocated]
      exact ⟨rfl, hstop⟩
    | label l | frame f =>
      have hformed : p.formed? place = none := by
        rw [PlacedItem.formed?, BodyItem.formed?, hp]
      have hnone : p.located? place = none := by rw [PlacedItem.located?, hformed]; rfl
      rw [hp, width_other (by simp), Nat.add_zero] at hlocated hstop
      rw [List.filterMap_cons_none hformed, List.filterMap_cons_none hnone]
      exact ⟨hlocated, hstop⟩

theorem starts_eq (h : Laid o ps stop) :
    starts ps = (FormedOperation.located o (ps.filterMap (·.formed? place))).map Prod.fst := by
  rw [← (h.located place).1, List.map_filterMap, starts]
  refine List.filterMap_congr fun p _ => ?_
  unfold PlacedItem.start? PlacedItem.located? PlacedItem.formed? BodyItem.formed?
  cases p.item <;> rfl

/-- **The offset of a label** is the offset of its place. -/
theorem offsetOf_place (h : Laid 0 ps stop)
    (hl : ps.findSome? (PlacedItem.labelled? l) = some q) :
    ∃ k, BodyEvent.placeOf l (ps.map (·.item.event)) = some k ∧
      q = FormedOperation.offsetOf (ps.filterMap (·.formed? place)) k := by
  obtain ⟨-, hmem, hplace⟩ := h.placeOf hl
  refine ⟨_, hplace, ?_⟩
  rw [FormedOperation.offsetOf, ← h.starts_eq place, ← (h.located place).2]
  by_cases hq : q ∈ starts ps
  · rw [List.getElem?_idxOf hq, Option.getD_some]
  · rw [List.idxOf_eq_length hq, List.getElem?_eq_none (Nat.le_refl _), Option.getD_none]
    exact hmem.resolve_left hq

end Laid

namespace Layout

variable {layout : Layout}

/-- **A jump is out of reach** or not by the places of the operations. -/
theorem isTooFar_formed {place : Label → Nat} {p : PlacedItem} {isFar : Bool}
    (hlaid : Laid 0 layout.items layout.length)
    (hlabels : ∀ l, layout.labels[l]? = layout.items.findSome? (PlacedItem.labelled? l))
    (hplace : ∀ l k, BodyEvent.placeOf l (layout.items.map (·.item.event)) = some k → place l = k)
    (h : layout.isTooFar p = .ok isFar) :
    isFar = (p.located? place).any
      (FormedOperation.isTooFar (layout.items.filterMap (·.formed? place))) := by
  unfold isTooFar at h
  unfold PlacedItem.located? PlacedItem.formed? BodyItem.formed?
  cases hp : p.item with
  | label l | frame f =>
    simp only [hp, BodyItem.widenable?] at h
    split at h <;> cases h <;> rfl
  | operation op =>
    have hwidenable : (BodyItem.operation op).widenable? = op.widenable? := by
      cases op with
      | plain i => rfl
      | branch b => cases b <;> rfl
    rw [hp, hwidenable] at h
    simp only [Option.map_some, Option.any_some, FormedOperation.isTooFar,
      Operation.widenable?_map]
    -- one that is wide stays so, and the distance of another is that of the places
    cases hwide : p.wide with
    | true =>
      rw [hwide, if_pos rfl] at h
      cases h
      rfl
    | false =>
      rw [hwide, if_neg (by simp)] at h
      cases htarget : op.widenable? with
      | none => rw [htarget] at h; cases h; rfl
      | some l =>
        rw [htarget] at h
        obtain ⟨d, hd, h⟩ := Except.bind_eq_ok.1 h
        obtain ⟨q, hq, hd⟩ := Except.bind_eq_ok.1 hd
        cases hd
        cases h
        obtain ⟨hfound, -⟩ := offset_eq_ok hq
        rw [hlabels] at hfound
        obtain ⟨k, hk, rfl⟩ := hlaid.offsetOf_place place hfound
        rw [Option.map_some, hplace l k hk]
        rfl

/-- What becomes of items is what becomes of their operations. -/
theorem zip_formed {place : Label → Nat} {ps : List PlacedItem} {far : List Bool}
    {tooFar : Nat × FormedOperation → Bool}
    (h : List.Forall₂ (fun p isFar => isFar = (p.located? place).any tooFar) ps far) :
    (((ps.map fun p => (p.item, p.wide)).zip far).map fun x =>
        (x.1.1, x.1.2 || x.2)).filterMap (BodyItem.formed? place) =
      (ps.filterMap (·.located? place)).map (fun x => (x.2.1, x.2.2 || tooFar x)) ∧
      far.any id = (ps.filterMap (·.located? place)).any tooFar := by
  induction h with
  | nil => exact ⟨rfl, rfl⟩
  | @cons p isFar ps far hfar _ ih =>
    obtain ⟨hformed, hany⟩ := ih
    rw [List.map_cons, List.zip_cons_cons, List.map_cons, List.any_cons, hany, hfar]
    cases hp : p.item with
    | operation op =>
      have hsome : p.located? place = some (p.offset, op.map place, p.wide) := by
        rw [PlacedItem.located?, PlacedItem.formed?, BodyItem.formed?, hp]; rfl
      rw [List.filterMap_cons_some hsome, hsome, List.map_cons, List.any_cons]
      refine ⟨?_, rfl⟩
      rw [← hformed]
      rfl
    | label l | frame f =>
      have hnone : p.located? place = none := by
        rw [PlacedItem.located?, PlacedItem.formed?, BodyItem.formed?, hp]; rfl
      rw [List.filterMap_cons_none hnone, hnone]
      exact ⟨hformed, rfl⟩

/-- Items that were placed keep their operations. -/
theorem place_formed (place : Label → Nat) {items : List (BodyItem × Bool)}
    (h : Layout.place items = .ok layout) :
    layout.items.map (fun p => (p.item, p.wide)) = items ∧ Laid 0 layout.items layout.length ∧
      (∀ l, layout.labels[l]? = layout.items.findSome? (PlacedItem.labelled? l)) ∧
      layout.items.filterMap (·.formed? place) = items.filterMap (BodyItem.formed? place) := by
  obtain ⟨ps, hitems, hps, hlaid, hlabels⟩ := placeOnto_eq_ok h
  rw [List.reverse_nil, List.nil_append] at hitems
  subst hitems
  refine ⟨hps, hlaid, fun l => by rw [hlabels]; simp, ?_⟩
  rw [← hps, List.filterMap_map]
  rfl

/-- **The rounds on items** are the rounds on their operations. -/
theorem settle_formed {place : Label → Nat} {rounds : Nat} {items : List (BodyItem × Bool)}
    (hplace : ∀ l k, BodyEvent.placeOf l (items.map (·.1.event)) = some k → place l = k)
    (h : settle rounds items = .ok layout) :
    layout.items.filterMap (·.formed? place) =
      FormedOperation.settle rounds (items.filterMap (BodyItem.formed? place)) := by
  induction rounds generalizing items with
  | zero =>
    obtain ⟨found, hfound, h⟩ := Except.bind_eq_ok.1 h
    obtain ⟨rfl, -⟩ := checkLength_eq_ok h
    exact (place_formed place hfound).2.2.2
  | succ rounds ih =>
    obtain ⟨found, hfound, h⟩ := Except.bind_eq_ok.1 h
    obtain ⟨far, hfar, h⟩ := Except.bind_eq_ok.1 h
    obtain ⟨hitems, hlaid, hlabels, hformed⟩ := place_formed place hfound
    have hevents : found.items.map (·.item.event) = items.map (·.1.event) := by
      rw [← hitems, List.map_map]; rfl
    have hall := (mapM_eq_ok.1 hfar).imp fun p isFar hp =>
      isTooFar_formed hlaid hlabels (hevents ▸ hplace) hp
    have hlength : items.length ≤ far.length := by
      rw [← hitems, List.length_map, hall.length_eq]
    obtain ⟨hnext, hany⟩ := zip_formed hall
    rw [(hlaid.located place).1, hformed] at hnext hany
    rw [hitems] at hnext
    rw [FormedOperation.settle, ← hany]
    split at h
    · rename_i hfarAny
      rw [if_pos hfarAny, ← hnext]
      -- the items of the next round are the same, only some of them are wide now
      have hsame : ((items.zip far).map fun x => (x.1.1, x.1.2 || x.2)).map (·.1.event) =
          items.map (·.1.event) := by
        conv_rhs => rw [← List.map_fst_zip hlength, List.map_map]
        rw [List.map_map]
        rfl
      exact ih (hsame ▸ hplace) h
    · rename_i hfarAny
      obtain ⟨rfl, -⟩ := checkLength_eq_ok h
      rw [if_neg hfarAny]
      exact hformed

end Layout

/-! ## The layout of a body -/

/-- The operations among some items, and how many of them have a wide form. -/
theorem BodyItem.formed_narrow (place : Label → Nat) (items : List BodyItem) :
    (items.map (·, false)).filterMap (formed? place) =
        ((BodyEvent.operations (items.map event)).map (·.map place)).map (·, false) ∧
      items.countP (·.widenable?.isSome) =
        ((BodyEvent.operations (items.map event)).map (·.map place)).countP
          (·.widenable?.isSome) := by
  induction items with
  | nil => exact ⟨rfl, rfl⟩
  | cons item items ih =>
    obtain ⟨hformed, hcount⟩ := ih
    cases item with
    | operation op =>
      have hops : BodyEvent.operations ((BodyItem.operation op :: items).map event) =
          op :: BodyEvent.operations (items.map event) := rfl
      have hsome : formed? place (.operation op, false) = some (op.map place, false) := rfl
      have hwidenable : (op.map place).widenable?.isSome =
          (BodyItem.operation op).widenable?.isSome := by
        rw [Operation.widenable?_map, Option.isSome_map]
        cases op with
        | plain i => rfl
        | branch b => cases b <;> rfl
      rw [hops, List.map_cons, List.filterMap_cons_some hsome, hformed, List.countP_cons, hcount,
        List.map_cons, List.map_cons, List.countP_cons, hwidenable]
      exact ⟨rfl, rfl⟩
    | label l | frame f => exact ⟨hformed, hcount⟩

/-- The content of some events has the places of their labels. -/
theorem PlacedBody.eq_ofEvents {events : List BodyEvent} {p : PlacedBody}
    (h : ofEvents? events = some p) :
    p = ofEvents (fun l => (BodyEvent.placeOf l events).getD 0) events ∧
      ∀ e ∈ events, ∀ l ∈ e.references, (BodyEvent.placeOf l events).isSome := by
  unfold ofEvents? at h
  split at h
  · rename_i hall
    obtain rfl := Option.some.inj h
    refine ⟨rfl, fun e he l hl => ?_⟩
    exact List.all_eq_true.1 hall l (List.mem_flatMap.2 ⟨e, he, hl⟩)
  · cases h

namespace Layout

variable {layout : Layout} {events : List BodyEvent} {p : PlacedBody}

/-- **The form of the operations** in a layout that was found. -/
theorem ofItems_formed (hlayout : ofItems (events.filterMap BodyEvent.item?) = .ok layout) :
    let place := fun l => (BodyEvent.placeOf l events).getD 0
    layout.items.filterMap (·.formed? place) =
      FormedOperation.ofOperations ((BodyEvent.operations events).map (·.map place)) := by
  intro place
  have hevents : ((events.filterMap BodyEvent.item?).map (·, false)).map (·.1.event) =
      (events.filterMap BodyEvent.item?).map BodyItem.event := by
    rw [List.map_map]; rfl
  obtain ⟨hformed, hcount⟩ := BodyItem.formed_narrow place (events.filterMap BodyEvent.item?)
  rw [BodyEvent.operations_items] at hformed hcount
  have hplace : ∀ l k, BodyEvent.placeOf l
      (((events.filterMap BodyEvent.item?).map (·, false)).map (·.1.event)) = some k →
        place l = k := by
    intro l k hk
    rw [hevents, BodyEvent.placeOf_items] at hk
    change (BodyEvent.placeOf l events).getD 0 = k
    rw [hk, Option.getD_some]
  rw [settle_formed hplace hlayout, FormedOperation.ofOperations, hformed, hcount]

/-- A label that has a place has the offset of the operation there. -/
theorem Sound.offsetD_formed (hsound : layout.Sound (events.filterMap BodyEvent.item?)) {l : Label}
    (hl : (BodyEvent.placeOf l events).isSome) :
    let place := fun l => (BodyEvent.placeOf l events).getD 0
    layout.offsetD l =
      FormedOperation.offsetOf (layout.items.filterMap (·.formed? place)) (place l) := by
  intro place
  have hfound := hsound.labels_eq_some hl
  rw [hsound.labels] at hfound
  obtain ⟨k, hk, hq⟩ := hsound.laid.offsetOf_place place hfound
  rw [hsound.events_eq, BodyEvent.placeOf_items] at hk
  change layout.offsetD l =
    FormedOperation.offsetOf _ ((BodyEvent.placeOf l events).getD 0)
  rw [hq, hk, Option.getD_some]

/-- **The layout is a function of the operations by places**: where they start and end, and the
bytes of the code. -/
theorem of_places (hlayout : ofItems (events.filterMap BodyEvent.item?) = .ok layout)
    (hp : PlacedBody.ofEvents? events = some p) :
    let xs := FormedOperation.ofOperations p.operations
    starts layout.items = (FormedOperation.located 0 xs).map Prod.fst ∧
      layout.length = FormedOperation.stop 0 xs ∧ layout.code = FormedOperation.code xs := by
  intro xs
  obtain ⟨rfl, hsome⟩ := PlacedBody.eq_ofEvents hp
  have hsound := ofItems_eq_ok hlayout
  have hformed := ofItems_formed hlayout
  set place : Label → Nat := fun l => (BodyEvent.placeOf l events).getD 0
  change layout.items.filterMap (·.formed? place) = xs at hformed
  obtain ⟨hlocated, hstop⟩ := hsound.laid.located place
  have hstarts := hsound.laid.starts_eq place
  rw [hformed] at hlocated hstop hstarts
  refine ⟨hstarts, hstop, ?_⟩
  -- each label that an operation refers to has the offset of its place
  have hoffset : ∀ op, .operation op ∈ events → ∀ l ∈ op.targets,
      layout.offsetD l = FormedOperation.offsetOf xs (place l) := fun op hop l hl => by
    rw [hsound.offsetD_formed (hsome _ hop l hl), hformed]
  rw [code, FormedOperation.code, ← hlocated, List.filterMap_eq_flatMap_toList, List.flatMap_assoc]
  refine List.flatMap_congr fun q hq => ?_
  cases hitem : q.item with
  | operation op =>
    have hop := hsound.event_mem hq
    rw [hitem] at hop
    have hlocated : q.located? place = some (q.offset, op.map place, q.wide) := by
      rw [PlacedItem.located?, PlacedItem.formed?, BodyItem.formed?, hitem]; rfl
    rw [hlocated, itemBytes, hitem, Option.toList_some, List.flatMap_singleton]
    dsimp only
    rw [Operation.map_map, Operation.map_congr (hoffset op hop)]
  | label l | frame f =>
    have hnone : q.located? place = none := by
      rw [PlacedItem.located?, PlacedItem.formed?, BodyItem.formed?, hitem]; rfl
    rw [hnone, itemBytes, hitem]
    rfl

end Layout

end FreshLocal
