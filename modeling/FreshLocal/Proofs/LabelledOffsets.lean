import FreshLocal.Body
import Mathlib.Data.List.Perm.Basic
import Mathlib.Data.List.TakeWhile
import Mathlib.Tactic

/-!
# The labels of a body

Each offset that something in a body refers to has a label of its own, and no
other offset has one. Lines and frames are found at the operation they belong to.

* `Body.mem_labelled`: the offsets with a label are those that something refers to.
* `Body.label_inj`: **two offsets with one label are the same**.
* `Body.attachFrames_eq`: each frame is at an operation, or left in the end.
* `perm_flatMap_filter`: entries are those of each offset in turn, in some order.
* `flatMap_filter_eq`: **entries in order** are those of each offset in turn.
-/

namespace FreshLocal

/-- Numbers in order, each of them once. -/
theorem eraseReps_eq {xs : List Nat} (h : xs.Pairwise (· ≤ ·)) :
    xs.eraseReps.Pairwise (· < ·) ∧ ∀ o, o ∈ xs.eraseReps ↔ o ∈ xs := by
  have key : ∀ (xs : List Nat) (a : Nat) (done : List Nat), (a :: xs).Pairwise (· ≤ ·) →
      ∃ more, List.eraseRepsBy.loop (· == ·) a xs done = done.reverse ++ a :: more ∧
        (a :: more).Pairwise (· < ·) ∧ ∀ o, o ∈ a :: more ↔ o ∈ a :: xs := by
    intro xs
    induction xs with
    | nil => intro a done _; exact ⟨[], by simp [List.eraseRepsBy.loop], by simp, by simp⟩
    | cons x xs ih =>
      intro a done h
      obtain ⟨hle, hxs⟩ := List.pairwise_cons.1 h
      by_cases hax : a = x
      · subst hax
        obtain ⟨more, hloop, hmore, hmem⟩ := ih a done hxs
        refine ⟨more, by simpa [List.eraseRepsBy.loop] using hloop, hmore, fun o => ?_⟩
        rw [hmem]; simp
      · obtain ⟨more, hloop, hmore, hmem⟩ := ih x (a :: done) hxs
        have hbeq : (a == x) = false := beq_false_of_ne hax
        refine ⟨x :: more, ?_, ?_, fun o => ?_⟩
        · simp only [List.eraseRepsBy.loop, hbeq, hloop]; simp
        · refine List.pairwise_cons.2 ⟨fun o ho => ?_, hmore⟩
          have hax' := hle x (by simp)
          obtain rfl | ho := List.mem_cons.1 ((hmem o).1 ho)
          · omega
          · have := (List.pairwise_cons.1 hxs).1 o ho
            omega
        · rw [List.mem_cons, hmem, List.mem_cons (a := o) (l := x :: xs)]
  cases xs with
  | nil => simp [List.eraseReps, List.eraseRepsBy]
  | cons a xs =>
    obtain ⟨more, hloop, hmore, hmem⟩ := key xs a [] h
    have heq : (a :: xs).eraseReps = a :: more := by
      simpa [List.eraseReps, List.eraseRepsBy] using hloop
    rw [heq]
    exact ⟨hmore, hmem⟩

namespace Body

variable {b : Body} {o o' : Nat}

theorem pairwise_labelled (b : Body) : b.labelled.Pairwise (· < ·) :=
  (eraseReps_eq (by simpa using List.pairwise_mergeSort' (· ≤ ·) b.references)).1

theorem mem_labelled : o ∈ b.labelled ↔ o ∈ b.references := by
  rw [labelled, (eraseReps_eq (by simpa using List.pairwise_mergeSort' (· ≤ ·) b.references)).2]
  exact List.mem_mergeSort

/-- The label of an offset. -/
def label (b : Body) (o : Nat) : Label := b.labels.getD o ⟨0⟩

theorem getElem?_labels (h : o ∈ b.references) : b.labels[o]? = some ⟨b.labelled.idxOf o⟩ := by
  have hlt : b.labelled.idxOf o < b.labelled.length :=
    List.idxOf_lt_length_iff.2 (mem_labelled.2 h)
  have hmem : (o, b.labelled.idxOf o) ∈ b.labelled.zipIdx := by
    rw [List.mem_zipIdx_iff_getElem?, List.getElem?_eq_getElem hlt, List.getElem_idxOf]
  refine Std.HashMap.getElem?_ofList_of_mem (k := o) (beq_self_eq_true o) ?_
    (List.mem_map.2 ⟨_, hmem, rfl⟩)
  have hfst : (b.labelled.zipIdx.map Prod.fst).Pairwise (· < ·) := by
    rw [List.zipIdx_map_fst]; exact b.pairwise_labelled
  rw [List.pairwise_map]
  refine (List.pairwise_map.1 hfst).imp fun {x y} hxy => ?_
  exact beq_false_of_ne (Nat.ne_of_lt hxy)

theorem getElem?_labels_none (h : o ∉ b.references) : b.labels[o]? = none := by
  refine Std.HashMap.getElem?_ofList_of_contains_eq_false ?_
  rw [List.map_map]
  change (b.labelled.zipIdx.map Prod.fst).contains o = false
  rw [List.zipIdx_map_fst, List.contains_eq_mem, decide_eq_false]
  rwa [mem_labelled]

theorem label_eq (h : o ∈ b.references) : b.label o = ⟨b.labelled.idxOf o⟩ := by
  rw [label, Std.HashMap.getD_eq_getD_getElem?, getElem?_labels h, Option.getD_some]

/-- **Two offsets with one label** are the same. -/
theorem label_inj (h : o ∈ b.references) (h' : o' ∈ b.references) (heq : b.label o = b.label o') :
    o = o' := by
  rw [label_eq h, label_eq h', Label.mk.injEq] at heq
  exact (List.idxOf_inj (mem_labelled.2 h)).1 heq

/-- The event of the label of an offset, if it has one. -/
theorem labels_toList (b : Body) (o : Nat) : b.labels[o]?.toList.map BodyEvent.label =
    if o ∈ b.references then [.label (b.label o)] else [] := by
  split
  · rename_i h; rw [getElem?_labels h, label_eq h]; rfl
  · rename_i h; rw [getElem?_labels_none h]; rfl

/-- The lines at an offset. -/
theorem getD_linesAt (lines : List LineNumber) (o : Nat) : (linesAt lines).getD o [] =
    (lines.filter (·.start.toNat = o)).map LineNumber.line := by
  induction lines with
  | nil => simp [linesAt]
  | cons l lines ih =>
    have hcons : linesAt (l :: lines) = (linesAt lines).insert l.start.toNat
        (l.line :: (linesAt lines).getD l.start.toNat []) := rfl
    rw [hcons, Std.HashMap.getD_insert, List.filter_cons]
    by_cases h : l.start.toNat = o
    · simp [h, ih]
    · simp [h, ih]

section Frames

variable {α β : Type}

theorem attachFramesOnto_eq (operations : List (Nat × α)) (frames : List (Nat × β))
    (done : List (Nat × α × List β)) :
    ∃ attached left, attachFramesOnto operations frames done = (done.reverse ++ attached, left) ∧
      attached.map (fun x => (x.1, x.2.1)) = operations ∧
      attached.flatMap (fun x => x.2.2.map (x.1, ·)) ++ left = frames := by
  induction operations generalizing frames done with
  | nil => exact ⟨[], frames, by simp [attachFramesOnto]⟩
  | cons x rest ih =>
    obtain ⟨offset, op⟩ := x
    have hspan := List.span_eq_takeWhile_dropWhile
      (p := fun f : Nat × β => f.1 = offset) (l := frames)
    obtain ⟨attached, left, heq, hops, hframes⟩ := ih
      (frames.dropWhile fun f => f.1 = offset)
      ((offset, op, (frames.takeWhile fun f => f.1 = offset).map Prod.snd) :: done)
    refine ⟨(offset, op, (frames.takeWhile fun f => f.1 = offset).map Prod.snd) :: attached, left,
      ?_, ?_, ?_⟩
    · simp only [attachFramesOnto, hspan, heq]; simp
    · simp [hops]
    · have hhere : ((frames.takeWhile fun f => f.1 = offset).map Prod.snd).map (offset, ·) =
          frames.takeWhile fun f => f.1 = offset := by
        rw [List.map_map]
        refine (List.map_congr_left fun f hf => ?_).trans (List.map_id _)
        have hoffset := List.mem_takeWhile_imp hf
        rw [decide_eq_true_eq] at hoffset
        rw [Function.comp_apply, ← hoffset, id]
      rw [List.flatMap_cons, hhere, List.append_assoc, hframes, List.takeWhile_append_dropWhile]

/-- **Each frame is at an operation**, or left in the end. -/
theorem attachFrames_eq (operations : List (Nat × α)) (frames : List (Nat × β)) :
    ∃ attached left, attachFrames operations frames = (attached, left) ∧
      attached.map (fun x => (x.1, x.2.1)) = operations ∧
      attached.flatMap (fun x => x.2.2.map (x.1, ·)) ++ left = frames :=
  attachFramesOnto_eq operations frames []

/-- **No frame is left** if the frames are in order, each at an operation. -/
theorem attachFrames_left {operations : List (Nat × α)} {frames : List (Nat × β)}
    (hops : (operations.map Prod.fst).Pairwise (· < ·))
    (hframes : (frames.map Prod.fst).Pairwise (· ≤ ·))
    (h : ∀ f ∈ frames, f.1 ∈ operations.map Prod.fst) :
    (attachFrames operations frames).2 = [] := by
  have key : ∀ (operations : List (Nat × α)) (frames : List (Nat × β))
      (done : List (Nat × α × List β)), (operations.map Prod.fst).Pairwise (· < ·) →
      (frames.map Prod.fst).Pairwise (· ≤ ·) → (∀ f ∈ frames, f.1 ∈ operations.map Prod.fst) →
      (attachFramesOnto operations frames done).2 = [] := by
    intro operations
    induction operations with
    | nil =>
      intro frames done _ _ h
      cases frames with
      | nil => rfl
      | cons f frames => exact absurd (h f (by simp)) (by simp)
    | cons x rest ih =>
      intro frames done hops hframes h
      obtain ⟨offset, op⟩ := x
      have hspan := List.span_eq_takeWhile_dropWhile
        (p := fun f : Nat × β => f.1 = offset) (l := frames)
      rw [List.map_cons, List.pairwise_cons] at hops
      have hsub : (frames.dropWhile fun f => f.1 = offset).Sublist frames :=
        List.dropWhile_sublist _
      have hlater := hframes.sublist (hsub.map Prod.fst)
      simp only [attachFramesOnto, hspan]
      refine ih _ _ hops.2 hlater fun f hf => ?_
      -- the first frame behind those here is at a later operation, and the others are not before it
      have hmem := h f (hsub.subset hf)
      rw [List.map_cons, List.mem_cons] at hmem
      refine hmem.resolve_left fun hoffset => ?_
      rcases hd : frames.dropWhile (fun f => f.1 = offset) with _ | ⟨g, more⟩
      · rw [hd] at hf; cases hf
      · have hg : g.1 ≠ offset := by
          have hhead := List.head?_dropWhile_not (fun f : Nat × β => decide (f.1 = offset)) frames
          simpa [hd] using hhead
        rw [hd] at hf hlater hsub
        have hgmem := h g (hsub.subset (by simp))
        rw [List.map_cons, List.mem_cons] at hgmem
        have hlt := hops.1 _ (hgmem.resolve_left hg)
        rw [List.map_cons, List.pairwise_cons] at hlater
        obtain rfl | hf := List.mem_cons.1 hf
        · exact hg hoffset
        · have := hlater.1 _ (List.mem_map_of_mem hf)
          omega
  exact key operations frames [] hops hframes h

end Frames

end Body

/-- Numbers in order stand in the order of their size. -/
theorem idxOf_le_idxOf {xs : List Nat} {o o' : Nat} (h : xs.Pairwise (· < ·)) (hle : o ≤ o')
    (ho : o ∈ xs ∨ ∀ x ∈ xs, x < o) : xs.idxOf o ≤ xs.idxOf o' := by
  induction xs with
  | nil => simp
  | cons x xs ih =>
    rw [List.pairwise_cons] at h
    by_cases hx : x = o
    · simp [hx]
    · have hrest : o ∈ xs ∨ ∀ y ∈ xs, y < o :=
        ho.imp (fun ho => (List.mem_cons.1 ho).resolve_left (Ne.symm hx))
          fun ho y hy => ho y (List.mem_cons_of_mem _ hy)
      have hlt : x < o := by
        obtain ho | ho := ho
        · exact h.1 o ((List.mem_cons.1 ho).resolve_left (Ne.symm hx))
        · exact ho x List.mem_cons_self
      rw [List.idxOf_cons, List.idxOf_cons, beq_false_of_ne hx, beq_false_of_ne (by omega : x ≠ o')]
      exact Nat.succ_le_succ (ih h.2 hrest)

theorem idxOf_lt_idxOf {xs : List Nat} {o o' : Nat} (h : xs.Pairwise (· < ·)) (hlt : o < o')
    (ho : o ∈ xs) : xs.idxOf o < xs.idxOf o' := by
  have hle := idxOf_le_idxOf h (Nat.le_of_lt hlt) (.inl ho)
  have hne : xs.idxOf o ≠ xs.idxOf o' := fun heq =>
    absurd ((List.idxOf_inj ho).1 heq) (Nat.ne_of_lt hlt)
  omega

/-- **Entries in order** are those of each key in turn. -/
theorem flatMap_filter_eq {α : Type} {key : α → Nat} {keys : List Nat} {xs : List α}
    (hkeys : keys.Pairwise (· < ·)) (hxs : (xs.map key).Pairwise (· ≤ ·))
    (h : ∀ x ∈ xs, key x ∈ keys) : keys.flatMap (fun k => xs.filter (key · = k)) = xs := by
  induction keys generalizing xs with
  | nil =>
    cases xs with
    | nil => rfl
    | cons x xs => exact absurd (h x (by simp)) (by simp)
  | cons k keys ih =>
    rw [List.pairwise_cons] at hkeys
    have hsplit : xs.filter (key · = k) ++ xs.filter (key · ≠ k) = xs := by
      clear ih
      have hle : ∀ x ∈ xs, k ≤ key x := fun x hx => by
        obtain hk | hk := List.mem_cons.1 (h x hx)
        · omega
        · exact Nat.le_of_lt (hkeys.1 _ hk)
      clear h
      induction xs with
      | nil => rfl
      | cons x xs ih =>
        rw [List.map_cons, List.pairwise_cons] at hxs
        by_cases hx : key x = k
        · have := ih hxs.2 fun y hy => hle y (by simp [hy])
          simpa [hx] using this
        · have hlt := Nat.lt_of_le_of_ne (hle x (by simp)) (Ne.symm hx)
          have hne : ∀ y ∈ xs, key y ≠ k := fun y hy => by
            have := hxs.1 _ (List.mem_map_of_mem hy)
            omega
          have hnone : xs.filter (key · = k) = [] := by
            rw [List.filter_eq_nil_iff]; simpa using hne
          have hall : xs.filter (key · ≠ k) = xs := by
            rw [List.filter_eq_self]; simpa using hne
          rw [List.filter_cons_of_neg (by simpa using hx), hnone,
            List.filter_cons_of_pos (by simpa using hx), hall, List.nil_append]
    -- the others belong to the keys behind
    have hrest := @ih (xs.filter (key · ≠ k)) hkeys.2
      (hxs.sublist (List.filter_sublist.map key)) fun x hx => by
        obtain ⟨hx, hne⟩ := List.mem_filter.1 hx
        exact (List.mem_cons.1 (h x hx)).resolve_left (by simpa using hne)
    rw [List.flatMap_cons]
    conv_rhs => rw [← hsplit, ← hrest]
    congr 1
    refine List.flatMap_congr fun k' hk' => ?_
    rw [List.filter_filter]
    refine List.filter_congr fun x _ => ?_
    have := hkeys.1 k' hk'
    by_cases hx : key x = k'
    · simp [hx]; omega
    · simp [hx]

/-- Entries by their key, each key in turn. -/
theorem perm_flatMap_filter {α : Type} (key : α → Nat) {keys : List Nat} (hkeys : keys.Nodup)
    (xs : List α) : (keys.flatMap fun k => xs.filter (key · = k)).Perm
      (xs.filter (key · ∈ keys)) := by
  induction keys with
  | nil => simp
  | cons k keys ih =>
    rw [List.nodup_cons] at hkeys
    rw [List.flatMap_cons]
    refine ((ih hkeys.2).append_left _).trans ?_
    have hsplit := List.filter_append_perm (fun x => decide (key x = k))
      (xs.filter (key · ∈ k :: keys))
    refine List.Perm.trans (.of_eq ?_) hsplit
    rw [List.filter_filter, List.filter_filter]
    congr 1
    · refine List.filter_congr fun x _ => ?_
      by_cases hx : key x = k <;> simp [hx]
    · refine List.filter_congr fun x _ => ?_
      by_cases hx : key x = k
      · simp [hx, hkeys.1]
      · simp [hx]

end FreshLocal
