import FreshLocal.Proofs.DraftRequests

/-!
# The rounds of a layout

Items are placed and jumps that are out of reach are widened, round after round,
until no jump is out of reach. Nothing else ends the rounds, so two questions are
open: whether they end, and what the layout is worth that they end with. That code
moves apart does not answer the first, since a switch may take less padding behind
a jump that grew, and targets come closer then.

**Argument.** A round that is not the last one makes at least one narrow jump wide,
and no jump becomes narrow again. So the narrow jumps become fewer, and the rounds
are at most one more than they are. The last round found each narrow jump in reach,
in the very layout that is the outcome.

* `Layout.Settles`: **the rounds without a bound**, with how many they are.
* `Layout.narrow_widen`: each jump that is out of reach is one narrow jump less.
* `Layout.settles_iff`: the rounds that are allowed are enough.
* `Layout.Exact`: what a layout is to its items.
* `Layout.ofItems_rounds`: **the rounds end, and the layout is exact**; no fault of what
  follows has to do with the length of the code or the reach of a jump that can be wide.
-/

namespace FreshLocal

open PoolM

namespace Layout

variable {layout : Layout} {items : List (BodyItem × Bool)} {far : List Bool} {fault : Fault}
  {r : Except Fault Layout} {passes rounds : Nat}

/-- One round: items are placed, and those that have to become wide are found. -/
def survey (items : List (BodyItem × Bool)) : Except Fault (Layout × List Bool) := do
  let layout ← place items
  let far ← layout.items.mapM layout.isTooFar
  pure (layout, far)

/-- The items of the next round. -/
def widen (items : List (BodyItem × Bool)) (far : List Bool) : List (BodyItem × Bool) :=
  (items.zip far).map fun ((item, wide), isFar) => (item, wide || isFar)

/-- **The rounds without a bound.** They end with a fault, or with a layout in which nothing has to
become wide. -/
inductive Settles : (passes : Nat) → List (BodyItem × Bool) → Except Fault Layout → Prop
  | refused {items : List (BodyItem × Bool)} {fault : Fault} (h : survey items = .error fault) :
      Settles 1 items (.error fault)
  | settled {items : List (BodyItem × Bool)} {layout : Layout} {far : List Bool}
      (h : survey items = .ok (layout, far)) (hnone : far.any id = false) :
      Settles 1 items layout.checkLength
  | widened {items : List (BodyItem × Bool)} {layout : Layout} {far : List Bool} {passes : Nat}
      {r : Except Fault Layout} (h : survey items = .ok (layout, far)) (hsome : far.any id = true)
      (hrest : Settles passes (widen items far) r) : Settles (passes + 1) items r

/-- How many jumps could become wide. -/
def narrow (items : List (BodyItem × Bool)) : Nat :=
  items.countP fun x => !x.2 && x.1.widenable?.isSome

/-! ## One round -/

theorem survey_eq_ok (h : survey items = .ok (layout, far)) :
    place items = .ok layout ∧ layout.items.map (fun p => (p.item, p.wide)) = items ∧
      List.Forall₂ (fun p isFar => layout.isTooFar p = .ok isFar) layout.items far := by
  obtain ⟨placed, hplace, h⟩ := Except.bind_eq_ok.1 h
  obtain ⟨found, hfar, h⟩ := Except.bind_eq_ok.1 h
  cases h
  obtain ⟨ps, hitems, hps, -⟩ := placeOnto_eq_ok hplace
  rw [List.reverse_nil, List.nil_append] at hitems
  exact ⟨hplace, hitems ▸ hps, mapM_eq_ok.1 hfar⟩

/-- **What it takes to be out of reach**: only a narrow jump with a wide form is, and it is if the
offset of its target cannot be reached in 16 bits. -/
theorem isTooFar_cases {p : PlacedItem} {isFar : Bool} (h : layout.isTooFar p = .ok isFar) :
    (isFar = false ∧ (p.wide = true ∨ p.item.widenable? = none)) ∨
      ∃ l o, p.wide = false ∧ p.item.widenable? = some l ∧ layout.offset l = .ok o ∧
        isFar = !isNear ((o : Int) - p.offset) := by
  unfold isTooFar at h
  split at h
  · rename_i hwide
    cases h
    exact .inl ⟨rfl, .inl hwide⟩
  · rename_i hnarrow
    rw [Bool.not_eq_true] at hnarrow
    split at h
    · rename_i hnone
      cases h
      exact .inl ⟨rfl, .inr hnone⟩
    · rename_i l hl
      obtain ⟨d, hd, h⟩ := Except.bind_eq_ok.1 h
      obtain ⟨o, ho, hd⟩ := Except.bind_eq_ok.1 hd
      cases hd
      cases h
      exact .inr ⟨l, o, hnarrow, hl, ho, rfl⟩

theorem narrow_cons (item : BodyItem) (wide : Bool) :
    narrow ((item, wide) :: items) =
      narrow items + if !wide && item.widenable?.isSome then 1 else 0 :=
  List.countP_cons

theorem widen_cons (item : BodyItem) (wide isFar : Bool) :
    widen ((item, wide) :: items) (isFar :: far) = (item, wide || isFar) :: widen items far := rfl

/-- **Each jump that is out of reach is one narrow jump less.** -/
theorem narrow_widen {ps : List PlacedItem}
    (h : List.Forall₂ (fun p isFar => layout.isTooFar p = .ok isFar) ps far) :
    narrow (widen (ps.map fun p => (p.item, p.wide)) far) + far.countP id =
      narrow (ps.map fun p => (p.item, p.wide)) := by
  induction h with
  | nil => rfl
  | @cons p isFar ps far hfar _ ih =>
    rw [List.map_cons, widen_cons, narrow_cons, narrow_cons, List.countP_cons, ← ih]
    obtain ⟨rfl, -⟩ | ⟨l, o, hnarrow, hl, -, -⟩ := isTooFar_cases hfar
    · simp only [Bool.or_false, id_eq, Bool.false_eq_true, if_false]
      omega
    · rw [hnarrow, hl]
      cases isFar <;> simp <;> omega

/-- A round that is not the last one makes the narrow jumps fewer. -/
theorem narrow_widen_lt (h : survey items = .ok (layout, far)) (hsome : far.any id = true) :
    narrow (widen items far) < narrow items := by
  obtain ⟨-, hitems, hfar⟩ := survey_eq_ok h
  have hcount := narrow_widen hfar
  rw [hitems] at hcount
  have hpos : 0 < far.countP id := by
    obtain ⟨isFar, hmem, hisFar⟩ := List.any_eq_true.1 hsome
    exact List.countP_pos_iff.2 ⟨isFar, hmem, hisFar⟩
  omega

/-! ## All rounds -/

theorem settle_succ (rounds : Nat) (items : List (BodyItem × Bool)) :
    settle (rounds + 1) items = match survey items with
      | .error fault => .error fault
      | .ok (layout, far) =>
        if far.any id then settle rounds (widen items far) else layout.checkLength := by
  rw [settle, survey]
  cases place items with
  | error fault => rfl
  | ok layout =>
    simp only [bind, Except.bind]
    cases layout.items.mapM layout.isTooFar with
    | error fault => rfl
    | ok far => rfl

/-- **Without narrow jumps** there is nothing to find in a round. -/
theorem settle_zero (h : narrow items = 0) :
    settle 0 items = match survey items with
      | .error fault => .error fault
      | .ok (layout, _) => layout.checkLength := by
  rw [settle, survey]
  cases hplace : place items with
  | error fault => rfl
  | ok layout =>
    obtain ⟨ps, hitems, hps, -⟩ := placeOnto_eq_ok hplace
    rw [List.reverse_nil, List.nil_append] at hitems
    subst hitems
    have hfar : layout.items.mapM layout.isTooFar =
        .ok (layout.items.map fun _ => false) := by
      refine mapM_eq_ok.2 (List.forall₂_map_right_iff.2 (List.forall₂_same.2 fun p hp => ?_))
      have hkept := List.countP_eq_zero.1 h (p.item, p.wide)
        (hps ▸ List.mem_map_of_mem (f := fun p : PlacedItem => (p.item, p.wide)) hp)
      unfold isTooFar
      cases hwide : p.wide with
      | true => rfl
      | false =>
        cases hl : p.item.widenable? with
        | none => rfl
        | some l => simp [hwide, hl] at hkept
    simp only [bind, Except.bind, hfar]
    rfl

/-- **The rounds that are allowed are enough**, and they are at most one more than the narrow
jumps. -/
theorem settles_settle (h : narrow items ≤ rounds) :
    ∃ passes ≤ 1 + narrow items, Settles passes items (settle rounds items) := by
  induction rounds generalizing items with
  | zero =>
    have hzero : narrow items = 0 := Nat.le_zero.1 h
    rw [settle_zero hzero]
    cases hsurvey : survey items with
    | error fault => exact ⟨1, by omega, .refused hsurvey⟩
    | ok x =>
      obtain ⟨layout, far⟩ := x
      refine ⟨1, by omega, .settled hsurvey ?_⟩
      by_contra hsome
      rw [Bool.not_eq_false] at hsome
      have hlt := narrow_widen_lt hsurvey hsome
      omega
  | succ rounds ih =>
    rw [settle_succ]
    cases hsurvey : survey items with
    | error fault => exact ⟨1, by omega, .refused hsurvey⟩
    | ok x =>
      obtain ⟨layout, far⟩ := x
      cases hany : far.any id with
      | false =>
        simp only [hany, Bool.false_eq_true, if_false]
        exact ⟨1, by omega, .settled hsurvey hany⟩
      | true =>
        simp only [hany, if_true]
        have hlt := narrow_widen_lt hsurvey hany
        obtain ⟨passes, hle, hrest⟩ := @ih (widen items far) (by omega)
        exact ⟨passes + 1, by omega, .widened hsurvey hany hrest⟩

/-- The rounds have one outcome. -/
theorem Settles.unique {passes' : Nat} {r' : Except Fault Layout} (h : Settles passes items r)
    (h' : Settles passes' items r') : passes' = passes ∧ r' = r := by
  induction h generalizing passes' r' with
  | refused hsurvey =>
    cases h' with
    | refused h => rw [hsurvey] at h; cases h; exact ⟨rfl, rfl⟩
    | settled h _ | widened h _ _ => rw [hsurvey] at h; cases h
  | settled hsurvey hnone =>
    cases h' with
    | refused h => rw [hsurvey] at h; cases h
    | settled h _ => rw [hsurvey] at h; cases h; exact ⟨rfl, rfl⟩
    | widened h hsome _ => rw [hsurvey] at h; cases h; rw [hnone] at hsome; cases hsome
  | widened hsurvey hsome _ ih =>
    cases h' with
    | refused h => rw [hsurvey] at h; cases h
    | settled h hnone => rw [hsurvey] at h; cases h; rw [hnone] at hsome; cases hsome
    | widened h _ hrest =>
      rw [hsurvey] at h
      cases h
      obtain ⟨rfl, rfl⟩ := ih hrest
      exact ⟨rfl, rfl⟩

theorem settles_iff (items : List BodyItem) :
    ∃ passes ≤ 1 + items.countP (·.widenable?.isSome),
      ∀ k r, Settles k (items.map (·, false)) r ↔ k = passes ∧ r = ofItems items := by
  have hnarrow : narrow (items.map (·, false)) = items.countP (·.widenable?.isSome) := by
    rw [narrow, List.countP_map]
    rfl
  obtain ⟨passes, hle, hsettles⟩ := settles_settle (Nat.le_of_eq hnarrow)
  refine ⟨passes, hnarrow ▸ hle, fun k r => ⟨fun h => hsettles.unique h, ?_⟩⟩
  rintro ⟨rfl, rfl⟩
  exact hsettles

/-! ## What the layout is worth -/

/-- **The last round** found each narrow jump in reach, in the layout that is the outcome. -/
theorem Settles.near (h : Settles passes items r) (hr : r = .ok layout) {p : PlacedItem}
    (hp : p ∈ layout.items) (hnarrow : p.wide = false) {l : Label}
    (hl : p.item.widenable? = some l) :
    ∃ o, layout.offset l = .ok o ∧ isNear ((o : Int) - p.offset) = true := by
  induction h with
  | refused _ => cases hr
  | widened _ _ _ ih => exact ih hr
  | @settled items found far hsurvey hnone =>
    obtain ⟨rfl, -⟩ := checkLength_eq_ok hr
    obtain ⟨-, -, hfar⟩ := survey_eq_ok hsurvey
    obtain ⟨i, hi, rfl⟩ := List.getElem_of_mem hp
    have hlength := hfar.length_eq
    have hisFar := hfar.get hi (hlength ▸ hi)
    have hfalse : far.get ⟨i, hlength ▸ hi⟩ = false := by
      have hall := List.any_eq_false.1 hnone _ (List.get_mem far ⟨i, hlength ▸ hi⟩)
      simpa using hall
    rw [hfalse] at hisFar
    obtain ⟨-, hkept⟩ | ⟨l', o, -, hl', ho, hnear⟩ := isTooFar_cases hisFar
    · simp only [List.get_eq_getElem, hnarrow, hl, reduceCtorEq, or_self, Bool.false_eq_true]
        at hkept
    · simp only [List.get_eq_getElem, hl, Option.some.injEq] at hl'
      subst hl'
      exact ⟨o, ho, by simpa using hnear⟩

/-- The items of an outcome were placed in the last round. -/
theorem Settles.placed (h : Settles passes items r) (hr : r = .ok layout) :
    ∃ items, place items = .ok layout := by
  induction h with
  | refused _ => cases hr
  | widened _ _ _ ih => exact ih hr
  | @settled items found far hsurvey hnone =>
    obtain ⟨rfl, -⟩ := checkLength_eq_ok hr
    exact ⟨items, (survey_eq_ok hsurvey).1⟩

/-- **A label that was placed** has the offset at which it stands, and no other has its name. -/
theorem labels_of_placeOnto {o : Nat} {labels : Std.HashMap Label Nat} {done : List PlacedItem}
    (h : placeOnto o labels items done = .ok layout) {p : PlacedItem} (hp : p ∈ layout.items) :
    p ∈ done ∨ ∀ l, p.item = .label l → layout.labels[l]? = some p.offset := by
  fun_induction placeOnto o labels items done with
  | case1 o labels done => cases h; exact .inl (List.mem_reverse.1 hp)
  | case2 o labels l wide rest done hl => cases h
  | case3 o labels l wide rest done hl ih =>
    obtain hdone | hright := ih h
    · obtain rfl | hdone := List.mem_cons.1 hdone
      · refine .inr fun l' hl' => ?_
        cases hl'
        obtain ⟨ps, -, -, -, hlabels⟩ := placeOnto_eq_ok h
        rw [hlabels, Std.HashMap.getElem?_insert_self, Option.some_or]
      · exact .inl hdone
    · exact .inr hright
  | case4 o labels item wide rest done hitem ih =>
    obtain hdone | hright := ih h
    · obtain rfl | hdone := List.mem_cons.1 hdone
      · exact .inr fun l hl => absurd hl (hitem l)
      · exact .inl hdone
    · exact .inr hright

/-- The offset of an item by its number, and the length of the code behind the last one. -/
def offsetAt (layout : Layout) (i : Nat) : Nat :=
  (layout.items[i]?.map PlacedItem.offset).getD layout.length

/-- **What a layout is to its items.** -/
structure Exact (layout : Layout) (items : List BodyItem) : Prop where
  same : layout.items.map PlacedItem.item = items
  first : layout.offsetAt 0 = 0
  next : ∀ i p, layout.items[i]? = some p →
    layout.offsetAt i = p.offset ∧
      layout.offsetAt (i + 1) = p.offset + p.item.width p.offset p.wide
  labels : ∀ l o, layout.offset l = .ok o ↔
    ∃ i, items[i]? = some (.label l) ∧ layout.offsetAt (i + 1) = o
  wide : ∀ p ∈ layout.items, p.wide = true → p.item.widenable?.isSome
  near : ∀ p ∈ layout.items, p.wide = false → ∀ l, p.item.widenable? = some l →
    ∃ o, layout.offset l = .ok o ∧ isNear ((o : Int) - p.offset) = true
  length : layout.length ≤ 65535

/-- A fault that does not say that the code is too long, and that a target is out of reach only if
it is that of a conditional jump. -/
def Spares (layout : Layout) (fault : Fault) : Prop :=
  (∀ n, fault ≠ .codeTooLong n) ∧
    ∀ source target, fault = .jumpTooFar source target →
      ∃ p ∈ layout.items, ∃ c l, p.item = .operation (.branch (.jump c l)) ∧ p.offset = source ∧
        layout.offset l = .ok target ∧ isNear ((target : Int) - source) = false

end Layout

/-! ## Items in a row, by their numbers -/

namespace Laid

variable {o stop i : Nat} {ps : List PlacedItem} {p : PlacedItem}

theorem offset_zero (h : Laid o ps stop) : (ps[0]?.map PlacedItem.offset).getD stop = o := by
  cases ps with
  | nil => exact h.symm
  | cons p ps => exact h.1

/-- **An item starts where the one before it ends.** -/
theorem offset_succ (h : Laid o ps stop) (hp : ps[i]? = some p) :
    (ps[i + 1]?.map PlacedItem.offset).getD stop = p.offset + p.item.width p.offset p.wide := by
  induction ps generalizing o i with
  | nil => cases hp
  | cons x ps ih =>
    obtain ⟨rfl, hrest⟩ := h
    rw [List.getElem?_cons_succ]
    cases i with
    | zero =>
      cases hp
      exact hrest.offset_zero
    | succ i => exact ih hrest hp

end Laid

namespace Layout

variable {layout : Layout} {items : List BodyItem}

theorem offset_eq_ok_iff {l : Label} {o : Nat} :
    layout.offset l = .ok o ↔ layout.labels[l]? = some o := by
  unfold offset
  cases layout.labels[l]? <;> simp

/-- **A layout that was found is exact.** -/
theorem exact_ofItems (h : ofItems items = .ok layout) : layout.Exact items := by
  have hsound := ofItems_eq_ok h
  obtain ⟨passes, -, hiff⟩ := settles_iff items
  have hsettles := (hiff passes (ofItems items)).2 ⟨rfl, rfl⟩
  have hnext : ∀ i p, layout.items[i]? = some p →
      layout.offsetAt (i + 1) = p.offset + p.item.width p.offset p.wide :=
    fun i p hp => hsound.laid.offset_succ hp
  have hitem : ∀ i : Nat, items[i]? = layout.items[i]?.map PlacedItem.item := by
    intro i
    rw [← hsound.items, List.getElem?_map]
  refine ⟨hsound.items, hsound.laid.offset_zero, fun i p hp => ⟨?_, hnext i p hp⟩, fun l o => ?_,
    hsound.wide, fun p hp hnarrow l hl => hsettles.near h hp hnarrow hl, hsound.length⟩
  · rw [offsetAt, hp]
    rfl
  · rw [offset_eq_ok_iff]
    constructor
    · intro hfound
      rw [hsound.labels] at hfound
      obtain ⟨p, hp, hlabel⟩ := List.exists_of_findSome?_eq_some hfound
      obtain ⟨i, hi⟩ := List.mem_iff_getElem?.1 hp
      unfold PlacedItem.labelled? at hlabel
      split at hlabel
      · rename_i l' hl'
        split at hlabel
        · rename_i hsame
          cases hlabel
          subst hsame
          refine ⟨i, by rw [hitem, hi, Option.map_some, hl'], ?_⟩
          rw [hnext i p hi, hl']
          rfl
        · cases hlabel
      · cases hlabel
    · rintro ⟨i, hi, rfl⟩
      rw [hitem] at hi
      obtain ⟨p, hp, hl⟩ := Option.map_eq_some_iff.1 hi
      obtain ⟨placed, hplace⟩ := hsettles.placed h
      have hlabel := (labels_of_placeOnto hplace (List.mem_of_getElem? hp)).resolve_left nofun l hl
      rw [hlabel, hnext i p hp, hl]
      rfl

/-- The offset of a label is no more than the length of the code. -/
theorem Exact.offset_le (h : layout.Exact items) {l : Label} {o : Nat}
    (ho : layout.offset l = .ok o) (hlaid : Laid 0 layout.items layout.length) :
    o ≤ layout.length := by
  obtain ⟨i, -, rfl⟩ := (h.labels l o).1 ho
  unfold offsetAt
  cases hp : layout.items[i + 1]? with
  | none => exact Nat.le_refl _
  | some p => exact (Nat.le_add_right _ _).trans (hlaid.le.2 p (List.mem_of_getElem? hp)).2

/-- **The faults behind an exact layout**: the code is not too long, and the reach of a jump is
exceeded only by a conditional one. -/
theorem Exact.spares (h : layout.Exact items) (hlaid : Laid 0 layout.items layout.length)
    {fault : Fault} (hfault : layout.Refuses fault) : layout.Spares fault := by
  have hlength := h.length
  cases hfault with
  | unplaced _ | conflict _ _ _ _ | event _ => exact ⟨nofun, nofun⟩
  | farLabel ho hlong =>
    have hle := h.offset_le ho hlaid
    omega
  | farFrame hp hlong =>
    have hle := (hlaid.le.2 _ hp).2
    omega
  | @farTarget p b l o hp hitem hl ho hnarrow hswitch hfar =>
    refine ⟨nofun, fun source target heq => ?_⟩
    cases heq
    -- a narrow jump that can be wide is in reach, and a switch is never narrow
    have hin : p.item.widenable? ≠ some l := by
      intro hl'
      obtain ⟨o', ho', hnear⟩ := h.near p hp hnarrow l hl'
      rw [ho] at ho'
      cases ho'
      rw [hfar] at hnear
      cases hnear
    cases b with
    | jump c l' =>
      obtain rfl := List.mem_singleton.1 hl
      exact ⟨p, hp, c, l, hitem, rfl, ho, hfar⟩
    | goto l' | jsr l' =>
      obtain rfl := List.mem_singleton.1 hl
      exact absurd (by rw [hitem]; rfl) hin
    | tableSwitch _ _ _ | lookupSwitch _ _ => cases hswitch
    | exit _ => cases hl

/-- **The rounds end, and the layout is exact.** Whatever the items are, the rounds without a bound
have one outcome, that of the rounds that are allowed, and they are at most one more than the jumps
that can be wide. If the outcome is a layout, each item stands where the one before it ends, each
label where the item behind it starts, and only jumps that can be wide are, and all of these that
are out of reach. So no body with these items is refused because its code is too long, and none
because a target is out of reach but that of a conditional jump. -/
theorem ofItems_rounds (items : List BodyItem) :
    (∃ passes ≤ 1 + items.countP (·.widenable?.isSome),
      ∀ k r, Settles k (items.map (·, false)) r ↔ k = passes ∧ r = ofItems items) ∧
    ∀ layout, ofItems items = .ok layout → layout.Exact items ∧
      ∀ (d : Draft) (pool pool' : ConstantPool) (fault : Fault), d.items.toList = items →
        d.assemble.run pool = .error fault pool' → layout.Spares fault := by
  refine ⟨settles_iff items, fun layout h => ⟨exact_ofItems h, ?_⟩⟩
  rintro d pool pool' fault rfl hrun
  have hlaid := (ofItems_eq_ok h).laid
  have hrequest : ∀ r, d.Asks r → Safe (fun _ => True) layout.Spares r.index :=
    fun r _ => r.safe_index (fun index => ⟨nofun, nofun⟩) (ConstantPool.addKeeps_true _)
      fun _ => ConstantPool.addKeeps_true _
  have hsafe := Draft.safe_assemble_laid (fun _ hrefuses => (exact_ofItems h).spares hlaid hrefuses)
    h hrequest
  exact (hsafe.error pool fault pool' trivial hrun).2

/-- A jump and a conditional one over a switch, all of them to the end. -/
def farItems (targets : List Label) : List BodyItem :=
  [.operation (.branch (.goto ⟨0⟩)), .operation (.branch (.jump (.null .eq) ⟨0⟩)),
    .operation (.branch (.tableSwitch ⟨0⟩ 0 targets)), .label ⟨0⟩]

/-- These items, given the bytes of the first jump and where the code ends. -/
def farLayout (targets : List Label) (wide : Bool) (jump stop : Nat) : Layout :=
  ⟨[⟨0, .operation (.branch (.goto ⟨0⟩)), wide⟩,
    ⟨jump, .operation (.branch (.jump (.null .eq) ⟨0⟩)), false⟩,
    ⟨jump + 3, .operation (.branch (.tableSwitch ⟨0⟩ 0 targets)), false⟩,
    ⟨stop, .label ⟨0⟩, false⟩], Std.HashMap.insert ∅ ⟨0⟩ stop, stop⟩

section Far

variable {targets : List Label}

theorem farLayout_offset (wide : Bool) (jump stop : Nat) :
    (farLayout targets wide jump stop).offset ⟨0⟩ = .ok stop := by
  simp [offset, farLayout]

theorem place_far (h : targets.length = 8191) :
    place ((farItems targets).map (·, false)) = .ok (farLayout targets false 3 32784) ∧
      place ((farLayout targets true 5 32788).items.map fun p => (p.item, p.wide)) =
        .ok (farLayout targets true 5 32788) := by
  constructor <;>
    simp [place, placeOnto, farItems, farLayout, BodyItem.width, Branch.width, operandPadding, h]

theorem ofItems_far (h : targets.length = 8191) :
    ofItems (farItems targets) = .ok (farLayout targets true 5 32788) := by
  obtain ⟨hnarrow, hwide⟩ := place_far h
  refine Except.bind_eq_ok.2 ⟨_, hnarrow, Except.bind_eq_ok.2 ⟨[true, false, false, false], ?_, ?_⟩⟩
  · refine mapM_eq_ok.2 (.cons ?_ (.cons rfl (.cons rfl (.cons rfl .nil))))
    exact Except.bind_eq_ok.2 ⟨_, Except.bind_eq_ok.2 ⟨_, farLayout_offset false 3 32784, rfl⟩, rfl⟩
  · exact Except.bind_eq_ok.2 ⟨_, hwide, rfl⟩

/-- A body with these items. -/
def farDraft (targets : List Label) : Draft :=
  { Draft.empty 1 0 with items := (farItems targets).toArray }

/-- The first jump is wide, and the conditional one cannot be. -/
theorem encodeBranch_far :
    (farLayout targets true 5 32788).encodeBranch ⟨0, .operation (.branch (.goto ⟨0⟩)), true⟩
        (.goto ⟨0⟩) = .ok (Branch.encode 0 true (.goto 32788)) ∧
      (farLayout targets true 5 32788).encodeBranch
          ⟨5, .operation (.branch (.jump (.null .eq) ⟨0⟩)), false⟩ (.jump (.null .eq) ⟨0⟩) =
        .error (.jumpTooFar 5 32788) := by
  constructor <;>
    (simp only [encodeBranch, Branch.mapM, storedDistance, distance, farLayout_offset]; rfl)

theorem assemble_far (h : targets.length = 8191) (pool : ConstantPool) :
    (farDraft targets).assemble.run pool = .error (.jumpTooFar 5 32788) pool := by
  obtain ⟨hgoto, hjump⟩ := @encodeBranch_far targets
  refine bind_eq_error.2 (.inr ⟨_, pool, ofExcept_eq_ok.2 ⟨ofItems_far h, rfl⟩, ?_⟩)
  refine bind_eq_error.2 (.inl ?_)
  refine bind_eq_error.2 (.inr ⟨⟨[Branch.encode 0 true (.goto 32788)], [], none⟩, pool, ?_, ?_⟩)
  · exact bind_eq_ok.2 ⟨_, _, ofExcept_eq_ok.2 ⟨hgoto, rfl⟩, rfl⟩
  · refine bind_eq_error.2 (.inl (bind_eq_error.2 (.inl ?_)))
    rw [hjump]
    rfl

end Far

/-- The first jump becomes wide, which adds two bytes of padding to the switch, and the conditional
jump behind it is refused. -/
theorem ofItems_rounds_far : ∃ layout,
    ofItems (farItems (List.replicate 8191 ⟨0⟩)) = .ok layout ∧
      layout.Exact (farItems (List.replicate 8191 ⟨0⟩)) ∧
      layout.items.map (·.wide) = [true, false, false, false] ∧
      (farDraft (List.replicate 8191 ⟨0⟩)).assemble.run .empty =
        .error (.jumpTooFar 5 32788) .empty ∧
      layout.Spares (.jumpTooFar 5 32788) := by
  have hlayout := @ofItems_far (List.replicate 8191 ⟨0⟩) List.length_replicate
  have hrun := @assemble_far (List.replicate 8191 ⟨0⟩) List.length_replicate .empty
  obtain ⟨hexact, hspares⟩ := (ofItems_rounds _).2 _ hlayout
  exact ⟨_, hlayout, hexact, rfl, hrun, hspares _ _ _ _ List.toList_toArray hrun⟩

end Layout

end FreshLocal
