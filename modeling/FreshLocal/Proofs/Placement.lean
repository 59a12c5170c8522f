import FreshLocal.Proofs.BranchBytes
import FreshLocal.Proofs.InstructionBytes
import FreshLocal.Proofs.LabelledOffsets
import FreshLocal.Proofs.PlacedBody

/-!
# The layout of a body

In a layout that was found, items follow each other: each stands where the one
before it ends, and only instructions take bytes. So the number of instructions
before an offset says as much as the offset, and the offset of a label is given
by its place.

* `Laid`: items in a row, from an offset to another.
* `Layout.Sound`: **a layout that was found** for some items.
* `Layout.ofItems_eq_ok`: a layout is one.
* `Laid.placeOf`, `Laid.frames`: **places and offsets**.
-/

namespace FreshLocal

/-- Items stand in a row from the offset `o` to the offset `stop`. -/
def Laid : (o : Nat) → List PlacedItem → (stop : Nat) → Prop
  | o, [], stop => o = stop
  | o, p :: rest, stop => p.offset = o ∧ Laid (o + p.item.width o p.wide) rest stop

namespace PlacedItem

/-- The offset of a label, if it is the item. -/
def labelled? (l : Label) (p : PlacedItem) : Option Nat :=
  match p.item with
  | .label l' => if l' = l then some p.offset else none
  | _ => none

/-- The offset of an operation. -/
def start? (p : PlacedItem) : Option Nat :=
  match p.item with
  | .operation _ => some p.offset
  | _ => none

/-- A frame with its offset. -/
def frame? (p : PlacedItem) : Option (Nat × CodeFrame) :=
  match p.item with
  | .frame f => some (p.offset, f)
  | _ => none

theorem frame?_eq_some {p : PlacedItem} {q : Nat} {f : CodeFrame} :
    p.frame? = some (q, f) ↔ p.offset = q ∧ p.item = .frame f := by
  unfold frame?
  split
  · rename_i g hitem
    rw [hitem, Option.some.injEq, Prod.mk.injEq, BodyItem.frame.injEq]
  · rename_i hother
    exact ⟨nofun, fun h => absurd h.2 (hother f)⟩

end PlacedItem

/-- A layout that was found for some items. -/
structure Layout.Sound (layout : Layout) (items : List BodyItem) : Prop where
  items : layout.items.map PlacedItem.item = items
  laid : Laid 0 layout.items layout.length
  labels : ∀ l, layout.labels[l]? = layout.items.findSome? (PlacedItem.labelled? l)
  length : layout.length ≤ 65535
  wide : ∀ p ∈ layout.items, p.wide = true → p.item.widenable?.isSome

namespace Layout

variable {layout : Layout}

/-- **Items that were placed** stand in a row. -/
theorem placeOnto_eq_ok {o : Nat} {labels : Std.HashMap Label Nat}
    {items : List (BodyItem × Bool)} {done : List PlacedItem}
    (h : placeOnto o labels items done = .ok layout) :
    ∃ ps, layout.items = done.reverse ++ ps ∧ ps.map (fun p => (p.item, p.wide)) = items ∧
      Laid o ps layout.length ∧
      ∀ l, layout.labels[l]? = labels[l]?.or (ps.findSome? (PlacedItem.labelled? l)) := by
  fun_induction placeOnto o labels items done with
  | case1 o labels done => cases h; exact ⟨[], by simp, rfl, rfl, fun l => by simp⟩
  | case2 o labels l wide rest done hl => cases h
  | case3 o labels l wide rest done hl ih =>
    obtain ⟨ps, hitems, hps, hlaid, hlabels⟩ := ih h
    refine ⟨⟨o, .label l, wide⟩ :: ps, by simp [hitems], by simp [hps], ⟨rfl, hlaid⟩, fun l' => ?_⟩
    rw [hlabels, Std.HashMap.getElem?_insert, List.findSome?_cons]
    by_cases hll' : l = l'
    · subst hll'
      have hnone : labels[l]? = none := by simpa using hl
      simp [PlacedItem.labelled?, hnone]
    · simp [PlacedItem.labelled?, hll']
  | case4 o labels item wide rest done hitem ih =>
    obtain ⟨ps, hitems, hps, hlaid, hlabels⟩ := ih h
    refine ⟨⟨o, item, wide⟩ :: ps, by simp [hitems], by simp [hps], ⟨rfl, hlaid⟩, fun l' => ?_⟩
    rw [hlabels, List.findSome?_cons]
    cases item with
    | label l => exact absurd rfl (hitem l)
    | _ => rfl

theorem widenable_of_isTooFar {p : PlacedItem} (h : layout.isTooFar p = .ok true) :
    p.item.widenable?.isSome := by
  unfold isTooFar at h
  split at h
  · cases h
  · split at h
    · cases h
    · rename_i htarget; rw [htarget]; rfl

/-- Only jumps that have a wide form become wide. -/
theorem zip_isTooFar {ps : List PlacedItem} {far : List Bool}
    (h : List.Forall₂ (fun p isFar => layout.isTooFar p = .ok isFar) ps far) :
    ((ps.map fun p => (p.item, p.wide)).zip far).map (fun x => x.1.1) = ps.map PlacedItem.item ∧
      ∀ x ∈ (ps.map fun p => (p.item, p.wide)).zip far, x.2 = true → x.1.1.widenable?.isSome := by
  induction h with
  | nil => exact ⟨rfl, fun x hx => by cases hx⟩
  | cons hfar _ ih =>
    obtain ⟨hitems, hwide⟩ := ih
    refine ⟨by simp only [List.map_cons, List.zip_cons_cons, hitems], fun x hx hxfar => ?_⟩
    rw [List.map_cons, List.zip_cons_cons, List.mem_cons] at hx
    obtain rfl | hx := hx
    · cases hxfar
      exact widenable_of_isTooFar hfar
    · exact hwide x hx hxfar

theorem checkLength_eq_ok {found : Layout} (h : checkLength found = .ok layout) :
    found = layout ∧ layout.length ≤ 65535 := by
  unfold checkLength at h
  split at h
  · rename_i hlength
    cases h
    exact ⟨rfl, hlength⟩
  · cases h

/-- A layout that was found. -/
theorem settle_eq_ok {rounds : Nat} {items : List (BodyItem × Bool)}
    (hwide : ∀ x ∈ items, x.2 = true → x.1.widenable?.isSome)
    (h : settle rounds items = .ok layout) : layout.Sound (items.map Prod.fst) := by
  -- what is placed without a fault is sound; the rounds only choose what is wide
  have found : ∀ (items : List (BodyItem × Bool)) (found : Layout),
      (∀ x ∈ items, x.2 = true → x.1.widenable?.isSome) → place items = .ok found →
      checkLength found = .ok layout → layout.Sound (items.map Prod.fst) := by
    intro items found hwide hplace hcheck
    obtain ⟨rfl, hlength⟩ := checkLength_eq_ok hcheck
    obtain ⟨ps, hitems, hps, hlaid, hlabels⟩ := placeOnto_eq_ok hplace
    rw [List.reverse_nil, List.nil_append] at hitems
    refine ⟨?_, hitems ▸ hlaid, fun l => ?_, hlength, fun p hp hpw => ?_⟩
    · rw [hitems, ← hps, List.map_map]; rfl
    · rw [hlabels, hitems]; simp
    · refine hwide (p.item, p.wide) ?_ hpw
      rw [← hps, ← hitems]
      exact List.mem_map.2 ⟨p, hp, rfl⟩
  induction rounds generalizing items with
  | zero =>
    obtain ⟨placed, hplace, h⟩ := Except.bind_eq_ok.1 h
    exact found items placed hwide hplace h
  | succ rounds ih =>
    obtain ⟨placed, hplace, h⟩ := Except.bind_eq_ok.1 h
    obtain ⟨far, hfar, h⟩ := Except.bind_eq_ok.1 h
    split at h
    · obtain ⟨ps, hitems, hps, -, -⟩ := placeOnto_eq_ok hplace
      rw [List.reverse_nil, List.nil_append] at hitems
      rw [mapM_eq_ok, hitems] at hfar
      obtain ⟨hsame, hfarWide⟩ := zip_isTooFar hfar
      rw [hps] at hsame hfarWide
      have hfst : ((items.zip far).map fun x => (x.1.1, x.1.2 || x.2)).map
          Prod.fst = items.map Prod.fst := by
        rw [List.map_map]
        refine hsame.trans ?_
        rw [← hps, List.map_map]
        rfl
      rw [← hfst]
      refine ih (fun x hx hxwide => ?_) h
      obtain ⟨⟨⟨item, wide⟩, isFar⟩, hmem, rfl⟩ := List.mem_map.1 hx
      obtain hwide' | hisFar := Bool.or_eq_true_iff.1 hxwide
      · exact hwide (item, wide) (List.of_mem_zip hmem).1 hwide'
      · exact hfarWide _ hmem hisFar
    · exact found items placed hwide hplace h

/-- A label that is new gets the offset at which it stands. -/
theorem placeOnto_label {o : Nat} {labels : Std.HashMap Label Nat} {l : Label} {wide : Bool}
    {rest : List (BodyItem × Bool)} {done : List PlacedItem} (h : labels.contains l = false) :
    placeOnto o labels ((.label l, wide) :: rest) done =
      placeOnto o (labels.insert l o) rest (⟨o, .label l, wide⟩ :: done) := by
  rw [placeOnto, h]
  rfl

/-- **A layout that was found** for the items of a body. -/
theorem ofItems_eq_ok {items : List BodyItem} (h : ofItems items = .ok layout) :
    layout.Sound items := by
  have hsound := settle_eq_ok (fun x hx hwide => ?_) h
  · have hfst : (items.map fun item => (item, false)).map Prod.fst = items := by
      rw [List.map_map]
      exact List.map_id items
    rwa [hfst] at hsound
  · obtain ⟨item, -, rfl⟩ := List.mem_map.1 hx
    cases hwide

end Layout

/-! ## Places and offsets -/

/-- The event that an item came with. -/
def BodyItem.event : BodyItem → BodyEvent
  | label l => .label l
  | frame f => .frame f
  | operation op => .operation op

/-- The offsets at which operations start. -/
def starts (ps : List PlacedItem) : List Nat := ps.filterMap PlacedItem.start?

namespace Laid

variable {o stop q : Nat} {p : PlacedItem} {ps : List PlacedItem} {l : Label}

theorem width_pos (op : Operation Label) (wide : Bool) :
    0 < (BodyItem.operation op).width o wide := by
  cases op with
  | plain i => exact i.width_pos
  | branch b => exact b.width_pos wide

/-- An item stands between the first offset and the last. -/
theorem le (h : Laid o ps stop) : o ≤ stop ∧
    ∀ p ∈ ps, o ≤ p.offset ∧ p.offset + p.item.width p.offset p.wide ≤ stop := by
  induction ps generalizing o with
  | nil => exact ⟨Nat.le_of_eq h, by simp⟩
  | cons p ps ih =>
    obtain ⟨rfl, hrest⟩ := h
    obtain ⟨hstop, hall⟩ := ih hrest
    refine ⟨by omega, fun x hx => ?_⟩
    obtain rfl | hx := List.mem_cons.1 hx
    · exact ⟨Nat.le_refl _, hstop⟩
    · obtain ⟨hle, hend⟩ := hall x hx
      exact ⟨by omega, hend⟩

theorem starts_cons_operation {op : Operation Label} (hp : p.item = .operation op) :
    starts (p :: ps) = p.offset :: starts ps := by
  have hstart : p.start? = some p.offset := by rw [PlacedItem.start?, hp]
  rw [starts, List.filterMap_cons_some hstart]
  rfl

theorem starts_cons_other (hp : ∀ op, p.item ≠ .operation op) : starts (p :: ps) = starts ps := by
  have hstart : p.start? = none := by
    unfold PlacedItem.start?
    split
    · rename_i op hop; exact absurd hop (hp op)
    · rfl
  rw [starts, List.filterMap_cons_none hstart]
  rfl

theorem width_other {item : BodyItem} (hp : ∀ op, item ≠ .operation op) (wide : Bool) :
    item.width o wide = 0 := by
  cases item with
  | operation op => exact absurd rfl (hp op)
  | _ => rfl

/-- **Operations start in ascending order.** -/
theorem pairwise_starts (h : Laid o ps stop) :
    (starts ps).Pairwise (· < ·) ∧ ∀ q ∈ starts ps, o ≤ q ∧ q < stop := by
  induction ps generalizing o with
  | nil => exact ⟨.nil, fun q hq => by cases hq⟩
  | cons p ps ih =>
    obtain ⟨rfl, hrest⟩ := h
    obtain ⟨hpairwise, hall⟩ := ih hrest
    have hle := hrest.le.1
    cases hp : p.item with
    | operation op =>
      have hpos := width_pos (o := p.offset) op p.wide
      rw [hp] at hall hle
      rw [starts_cons_operation hp]
      refine ⟨List.pairwise_cons.2 ⟨fun q hq => ?_, hpairwise⟩, fun q hq => ?_⟩
      · have := (hall q hq).1
        omega
      · obtain rfl | hq := List.mem_cons.1 hq
        · exact ⟨Nat.le_refl _, by omega⟩
        · have := hall q hq
          exact ⟨by omega, this.2⟩
    | label l | frame f =>
      rw [starts_cons_other (by simp [hp])]
      rw [hp, width_other (by simp), Nat.add_zero] at hall
      exact ⟨hpairwise, hall⟩

/-- The first operation starts at the first offset. -/
theorem idxOf_first (h : Laid o ps stop) :
    (starts ps).idxOf o = 0 ∧ (o ∈ starts ps ∨ o = stop) := by
  induction ps generalizing o with
  | nil => exact ⟨rfl, .inr h⟩
  | cons p ps ih =>
    obtain ⟨rfl, hrest⟩ := h
    cases hp : p.item with
    | operation op =>
      rw [starts_cons_operation hp]
      exact ⟨List.idxOf_cons_self, .inl List.mem_cons_self⟩
    | label l | frame f =>
      rw [starts_cons_other (by simp [hp])]
      rw [hp, width_other (by simp), Nat.add_zero] at hrest
      exact ih hrest

/-- **The place of a label** is the number of operations before its offset. -/
theorem placeOf (h : Laid o ps stop) (hl : ps.findSome? (PlacedItem.labelled? l) = some q) :
    o ≤ q ∧ (q ∈ starts ps ∨ q = stop) ∧
      BodyEvent.placeOf l (ps.map (·.item.event)) = some ((starts ps).idxOf q) := by
  induction ps generalizing o with
  | nil => cases hl
  | cons p ps ih =>
    obtain ⟨rfl, hrest⟩ := h
    rw [List.findSome?_cons] at hl
    rw [List.map_cons]
    cases hp : p.item with
    | operation op =>
      have hnone : p.labelled? l = none := by rw [PlacedItem.labelled?, hp]
      rw [hnone] at hl
      obtain ⟨hle, hmem, hplace⟩ := ih hrest hl
      rw [hp] at hle
      have hpos := width_pos (o := p.offset) op p.wide
      rw [starts_cons_operation hp, BodyItem.event, BodyEvent.placeOf, hplace,
        List.idxOf_cons, beq_false_of_ne (by omega)]
      exact ⟨by omega, hmem.imp_left (List.mem_cons_of_mem _), rfl⟩
    | frame f =>
      have hnone : p.labelled? l = none := by rw [PlacedItem.labelled?, hp]
      rw [hnone] at hl
      rw [hp, width_other (by simp), Nat.add_zero] at hrest
      rw [starts_cons_other (by simp [hp])]
      exact ih hrest hl
    | label l' =>
      rw [hp, width_other (by simp), Nat.add_zero] at hrest
      rw [starts_cons_other (by simp [hp]), BodyItem.event, BodyEvent.placeOf]
      by_cases hll' : l' = l
      · have hfound : p.labelled? l = some p.offset := by
          rw [PlacedItem.labelled?, hp]; exact if_pos hll'
        rw [hfound] at hl
        cases hl
        obtain ⟨hzero, hmem⟩ := hrest.idxOf_first
        rw [if_pos hll', hzero]
        exact ⟨Nat.le_refl _, hmem, rfl⟩
      · have hnone : p.labelled? l = none := by
          rw [PlacedItem.labelled?, hp]; exact if_neg hll'
        rw [hnone] at hl
        rw [if_neg hll']
        exact ih hrest hl

/-- **The places of frames** are the numbers of operations before their offsets. -/
theorem frames (h : Laid o ps stop) (n : Nat) :
    (BodyEvent.numbered n (ps.map (·.item.event))).filterMap BodyEvent.frame? =
      (ps.filterMap PlacedItem.frame?).map fun x => (n + (starts ps).idxOf x.1, x.2) := by
  induction ps generalizing o n with
  | nil => rfl
  | cons p ps ih =>
    obtain ⟨rfl, hrest⟩ := h
    rw [List.map_cons, BodyEvent.numbered]
    cases hp : p.item with
    | operation op =>
      have hnone : p.frame? = none := by rw [PlacedItem.frame?, hp]
      have hpos := width_pos (o := p.offset) op p.wide
      rw [hp] at hrest
      rw [starts_cons_operation hp, List.filterMap_cons_none hnone,
        List.filterMap_cons_none rfl, BodyItem.event, BodyEvent.size, ih hrest]
      refine List.map_congr_left fun x hx => ?_
      obtain ⟨q, f⟩ := x
      obtain ⟨p', hp', hframe⟩ := List.mem_filterMap.1 hx
      obtain ⟨rfl, -⟩ := PlacedItem.frame?_eq_some.1 hframe
      have hle := (hrest.le.2 p' hp').1
      have hidx : (p.offset :: starts ps).idxOf p'.offset = (starts ps).idxOf p'.offset + 1 := by
        rw [List.idxOf_cons, beq_false_of_ne (by omega), cond_false]
      exact Prod.ext (by simp only [hidx]; omega) rfl
    | label l =>
      have hnone : p.frame? = none := by rw [PlacedItem.frame?, hp]
      rw [hp, width_other (by simp), Nat.add_zero] at hrest
      rw [starts_cons_other (by simp [hp]), List.filterMap_cons_none hnone,
        List.filterMap_cons_none rfl]
      exact ih hrest n
    | frame f =>
      have hsome : p.frame? = some (p.offset, f) := by rw [PlacedItem.frame?, hp]
      rw [hp, width_other (by simp), Nat.add_zero] at hrest
      have hhere : BodyEvent.frame? (n, (BodyItem.frame f).event) = some (n, f) := rfl
      rw [starts_cons_other (by simp [hp]), List.filterMap_cons_some hsome,
        List.filterMap_cons_some hhere, List.map_cons]
      refine congrArg₂ List.cons ?_ (ih hrest n)
      exact Prod.ext (by simp only [hrest.idxOf_first.1, Nat.add_zero]) rfl

end Laid

end FreshLocal
