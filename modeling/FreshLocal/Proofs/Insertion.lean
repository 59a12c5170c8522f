import FreshLocal.Slot.Insertion
import Mathlib.Data.List.GetD
import Mathlib.Tactic

/-!
# Where the locals of a frame go

A frame lists its locals by position, an instruction names them by slot. The
**contents** of a list of locals are what its slots hold, one after the other: a
value that takes two slots is followed by its second half, and a slot behind the
list holds nothing that can be used.

* `insertLocals_eq_ok`: what `insertLocals` does, in closed form: the list is cut
  at the boundary, and padded where it does not come so far.
* `insertLocals_eq_error`: it fails exactly at a local that reaches over the boundary.
* `insertLocals_append`: locals behind the boundary stay behind the new ones.
* `slotAt_insertLocals_below`, `slotAt_insertLocals_above`: what each slot holds then.
-/

namespace FreshLocal

variable {κ π : Type}

/-- What one slot holds. -/
inductive SlotContent (κ π : Type)
  | value (type : VerificationType κ π)
  /-- The second slot of a value that takes two. -/
  | secondHalf
deriving DecidableEq

/-- The slots of one value. -/
def VerificationType.contents (t : VerificationType κ π) : List (SlotContent κ π) :=
  .value t :: List.replicate (t.width - 1) .secondHalf

/-- The slots of the values of a list. -/
def slotContents (locals : List (VerificationType κ π)) : List (SlotContent κ π) :=
  locals.flatMap VerificationType.contents

/-- What a slot holds; behind the list, nothing that can be used. -/
def slotAt (locals : List (VerificationType κ π)) (slot : Nat) : SlotContent κ π :=
  (slotContents locals).getD slot (.value .top)

/-- A value of some locals starts below the boundary and ends above it. -/
def Straddles (boundary : Nat) (locals : List (VerificationType κ π)) : Prop :=
  ∃ before t after, locals = before ++ t :: after ∧ t.width = 2 ∧
    slotCount before < boundary ∧ boundary < slotCount before + t.width

namespace VerificationType

theorem width_cases (t : VerificationType κ π) : t.width = 1 ∨ t.width = 2 := by
  cases t <;> simp [width]

theorem width_pos (t : VerificationType κ π) : 0 < t.width := by
  rcases t.width_cases with h | h <;> omega

theorem length_contents (t : VerificationType κ π) : t.contents.length = t.width := by
  have := t.width_pos
  simp only [contents, List.length_cons, List.length_replicate]
  omega

end VerificationType

@[simp] theorem slotCount_nil : slotCount ([] : List (VerificationType κ π)) = 0 := rfl

@[simp] theorem slotCount_cons (t : VerificationType κ π) (l : List (VerificationType κ π)) :
    slotCount (t :: l) = t.width + slotCount l := rfl

@[simp] theorem slotCount_append (l l' : List (VerificationType κ π)) :
    slotCount (l ++ l') = slotCount l + slotCount l' := by
  induction l with
  | nil => simp
  | cons t l ih => simp only [List.cons_append, slotCount_cons, ih]; omega

@[simp] theorem slotContents_append (l l' : List (VerificationType κ π)) :
    slotContents (l ++ l') = slotContents l ++ slotContents l' := by
  simp [slotContents]

@[simp] theorem length_slotContents (l : List (VerificationType κ π)) :
    (slotContents l).length = slotCount l := by
  induction l with
  | nil => rfl
  | cons t l ih =>
    rw [← List.singleton_append, slotContents_append, List.length_append, ih]
    simp [slotContents, VerificationType.length_contents]

/-- A run of unusable slots holds nothing, whether it is in the list or behind it. -/
theorem slotContents_replicate_top (n : Nat) :
    slotContents (List.replicate n (.top : VerificationType κ π)) =
      List.replicate n (.value .top) := by
  induction n with
  | zero => rfl
  | succ n ih =>
    rw [List.replicate_succ, List.replicate_succ, ← ih]
    simp [slotContents, VerificationType.contents, VerificationType.width]

theorem slotAt_append_left {l l' : List (VerificationType κ π)} {v : Nat} (hv : v < slotCount l) :
    slotAt (l ++ l') v = slotAt l v := by
  simp only [slotAt, slotContents_append]
  exact List.getD_append _ _ _ _ (by simpa using hv)

theorem slotAt_append_right {l l' : List (VerificationType κ π)} {v : Nat} (hv : slotCount l ≤ v) :
    slotAt (l ++ l') v = slotAt l' (v - slotCount l) := by
  simp only [slotAt, slotContents_append]
  rw [List.getD_append_right _ _ _ _ (by simpa using hv), length_slotContents]

theorem slotAt_of_le {l : List (VerificationType κ π)} {v : Nat} (hv : slotCount l ≤ v) :
    slotAt l v = .value .top := by
  unfold slotAt
  exact List.getD_eq_default _ _ (by simpa using hv)

theorem slotAt_replicate_top (n v : Nat) :
    slotAt (List.replicate n (.top : VerificationType κ π)) v = .value .top := by
  simp only [slotAt, slotContents_replicate_top, List.getD_eq_getElem?_getD,
    List.getElem?_replicate]
  split <;> rfl

/-- The first slot of a value in a list. -/
theorem slotAt_value (before after : List (VerificationType κ π)) (t : VerificationType κ π) :
    slotAt (before ++ t :: after) (slotCount before) = .value t := by
  rw [slotAt_append_right le_rfl, Nat.sub_self]
  simp [slotAt, slotContents, VerificationType.contents]

/-- The second slot of a value in a list that takes two. -/
theorem slotAt_secondHalf (before after : List (VerificationType κ π)) {t : VerificationType κ π}
    (ht : t.width = 2) : slotAt (before ++ t :: after) (slotCount before + 1) = .secondHalf := by
  rw [slotAt_append_right (by omega), Nat.add_sub_cancel_left]
  simp [slotAt, slotContents, VerificationType.contents, ht]

/-! ## Cutting and inserting -/

/-- **How `splitLocals` counts**: it stops behind the locals that end at the boundary, or at the
end of the list with some slots missing. -/
theorem splitLocals_eq_ok {b : Nat} {locals : List (VerificationType κ π)} :
    ∀ {slot n : Nat} {r : Nat × Nat}, slot ≤ b → splitLocals b slot n locals = .ok r →
      ∃ before after, locals = before ++ after ∧ r.1 = n + before.length ∧
        slot + slotCount before + r.2 = b ∧ (r.2 = 0 ∨ after = []) := by
  induction locals with
  | nil =>
    intro slot n r hs h
    simp only [splitLocals, Except.ok.injEq] at h
    subst h
    exact ⟨[], [], rfl, rfl, by simp; omega, .inr rfl⟩
  | cons t rest ih =>
    intro slot n r hs h
    rw [splitLocals] at h
    split at h
    · split at h
      · rename_i hle
        obtain ⟨before, after, rfl, h1, h2, h3⟩ := ih hle h
        refine ⟨t :: before, after, rfl, ?_, ?_, h3⟩
        · simp only [List.length_cons]; omega
        · simp only [slotCount_cons]; omega
      · cases h
    · simp only [Except.ok.injEq] at h
      subst h
      exact ⟨[], t :: rest, rfl, rfl, by simp; omega, .inl rfl⟩

theorem splitLocals_append {b : Nat} {before : List (VerificationType κ π)} :
    ∀ {slot n : Nat} (after : List (VerificationType κ π)), slot + slotCount before = b →
      splitLocals b slot n (before ++ after) = .ok (n + before.length, 0) := by
  induction before with
  | nil =>
    intro slot n after h
    simp only [slotCount_nil, Nat.add_zero] at h
    subst h
    cases after <;> simp [splitLocals]
  | cons t before ih =>
    intro slot n after h
    have ht := t.width_pos
    simp only [slotCount_cons] at h
    simp only [List.cons_append, splitLocals]
    rw [if_pos (by omega), if_pos (by omega), ih after (by omega)]
    simp only [List.length_cons, Except.ok.injEq, Prod.mk.injEq, and_true]
    omega

theorem splitLocals_short {b : Nat} {locals : List (VerificationType κ π)} :
    ∀ {slot n : Nat}, slot + slotCount locals ≤ b →
      splitLocals b slot n locals = .ok (n + locals.length, b - (slot + slotCount locals)) := by
  induction locals with
  | nil => intro slot n _; rfl
  | cons t rest ih =>
    intro slot n h
    have ht := t.width_pos
    simp only [slotCount_cons] at h
    rw [splitLocals, if_pos (by omega), if_pos (by omega), ih (by omega)]
    simp only [List.length_cons, slotCount_cons, Except.ok.injEq, Prod.mk.injEq]
    omega

theorem splitLocals_eq_error {b : Nat} {locals : List (VerificationType κ π)} :
    ∀ {slot n s : Nat}, splitLocals b slot n locals = .error s ↔
      ∃ before t after, locals = before ++ t :: after ∧ s = slot + slotCount before ∧ s < b ∧
        b < s + t.width := by
  -- over the locals: the first of them may lie across the boundary, or a later one
  induction locals with
  | nil => intro slot n s; simp [splitLocals]
  | cons t rest ih =>
    intro slot n s
    rw [splitLocals]
    constructor
    · intro h
      split at h
      · split at h
        · obtain ⟨before, t', after, rfl, h1, h2, h3⟩ := ih.1 h
          exact ⟨t :: before, t', after, rfl, by simp only [slotCount_cons]; omega, h2, h3⟩
        · cases h
          exact ⟨[], t, rest, rfl, by simp, by omega, by omega⟩
      · cases h
    · rintro ⟨before, t', after, he, h1, h2, h3⟩
      cases before with
      | nil =>
        simp only [List.nil_append, List.cons.injEq] at he
        obtain ⟨rfl, rfl⟩ := he
        simp only [slotCount_nil, Nat.add_zero] at h1
        subst h1
        rw [if_pos h2, if_neg (by omega)]
      | cons t'' before =>
        simp only [List.cons_append, List.cons.injEq] at he
        obtain ⟨rfl, rfl⟩ := he
        have ht := t'.width_pos
        simp only [slotCount_cons] at h1
        rw [if_pos (by omega), if_pos (by omega)]
        exact ih.2 ⟨before, t', after, rfl, by omega, h2, h3⟩

variable {boundary : Nat} {inserted locals widened : List (VerificationType κ π)}

/-- **What `insertLocals` does.** The list is cut at the boundary, or filled up with unusable
slots if it ends before. -/
theorem insertLocals_eq_ok : insertLocals boundary inserted locals = .ok widened ↔
    ∃ before after missing, locals = before ++ after ∧ slotCount before + missing = boundary ∧
      (missing = 0 ∨ after = []) ∧
      widened = before ++ List.replicate missing .top ++ inserted ++ after := by
  constructor
  · intro h
    unfold insertLocals at h
    cases hs : splitLocals boundary 0 0 locals with
    | error s => rw [hs] at h; cases h
    | ok r =>
      obtain ⟨before, after, rfl, h1, h2, h3⟩ := splitLocals_eq_ok (Nat.zero_le _) hs
      obtain ⟨n, missing⟩ := r
      rw [hs] at h
      simp only [Nat.zero_add] at h1 h2
      subst h1
      cases h
      exact ⟨before, after, missing, rfl, h2, h3, by simp⟩
  · rintro ⟨before, after, missing, rfl, h2, h3, rfl⟩
    unfold insertLocals
    rcases h3 with rfl | rfl
    · rw [splitLocals_append after (by omega)]
      simp [bind, Except.bind, pure, Except.pure]
    · simp only [List.append_nil]
      rw [splitLocals_short (by omega)]
      have : boundary - (0 + slotCount before) = missing := by omega
      rw [this]
      simp [bind, Except.bind, pure, Except.pure]

/-- **When `insertLocals` fails**: at a local that reaches over the boundary. -/
theorem insertLocals_eq_error {s : Nat} : insertLocals boundary inserted locals = .error s ↔
    ∃ before t after, locals = before ++ t :: after ∧ s = slotCount before ∧ s < boundary ∧
      boundary < s + t.width := by
  have hs := @splitLocals_eq_error _ _ boundary locals 0 0 s
  simp only [Nat.zero_add] at hs
  rw [← hs]
  unfold insertLocals
  cases splitLocals boundary 0 0 locals <;> simp [bind, Except.bind, pure, Except.pure]

theorem insertLocals_isOk_iff :
    (∃ w, insertLocals boundary inserted locals = .ok w) ↔ ¬ Straddles boundary locals := by
  constructor
  · rintro ⟨w, hw⟩ ⟨before, t, after, he, ht, h1, h2⟩
    have hs : insertLocals boundary inserted locals = .error (slotCount before) :=
      insertLocals_eq_error.2 ⟨before, t, after, he, rfl, h1, h2⟩
    rw [hw] at hs
    cases hs
  · intro hn
    cases h : insertLocals boundary inserted locals with
    | ok w => exact ⟨w, rfl⟩
    | error s =>
      obtain ⟨before, t, after, he, rfl, h1, h2⟩ := insertLocals_eq_error.1 h
      refine absurd ⟨before, t, after, he, ?_, h1, h2⟩ hn
      rcases t.width_cases with h | h <;> omega

/-- **Locals that come so far as the boundary** keep their place before the new ones, whatever
follows them. -/
theorem insertLocals_append (hb : boundary ≤ slotCount locals)
    (h : insertLocals boundary inserted locals = .ok widened)
    (more : List (VerificationType κ π)) :
    insertLocals boundary inserted (locals ++ more) = .ok (widened ++ more) := by
  obtain ⟨before, after, missing, rfl, h2, h3, rfl⟩ := insertLocals_eq_ok.1 h
  have hm : missing = 0 := by
    rcases h3 with h3 | rfl
    · exact h3
    · simp only [List.append_nil] at hb; omega
  subst hm
  exact insertLocals_eq_ok.2 ⟨before, after ++ more, 0, by simp, h2, .inl rfl, by simp⟩

@[simp] theorem slotCount_replicate_top (n : Nat) :
    slotCount (List.replicate n (.top : VerificationType κ π)) = n := by
  rw [← length_slotContents, slotContents_replicate_top, List.length_replicate]

/-- Below the boundary, every slot holds what it held. -/
theorem slotAt_insertLocals_below (h : insertLocals boundary inserted locals = .ok widened)
    {v : Nat} (hv : v < boundary) : slotAt widened v = slotAt locals v := by
  obtain ⟨before, after, missing, rfl, h2, h3, rfl⟩ := insertLocals_eq_ok.1 h
  simp only [List.append_assoc]
  by_cases hb : v < slotCount before
  · rw [slotAt_append_left hb, slotAt_append_left hb]
  · -- the slot is one of those that the list does not come to
    obtain rfl : after = [] := h3.resolve_left (by omega)
    rw [slotAt_append_right (by omega), slotAt_append_left (by simp; omega), slotAt_replicate_top,
      slotAt_of_le (by simp; omega)]

/-- From the boundary on, every slot holds what was in the slot before it went up. -/
theorem slotAt_insertLocals_above (h : insertLocals boundary inserted locals = .ok widened)
    {v : Nat} (hv : boundary ≤ v) :
    slotAt widened (v + slotCount inserted) = slotAt locals v := by
  obtain ⟨before, after, missing, rfl, h2, h3, rfl⟩ := insertLocals_eq_ok.1 h
  rw [slotAt_append_right (by simp; omega)]
  rcases h3 with rfl | rfl
  · rw [slotAt_append_right (by omega)]
    congr 1
    simp; omega
  · rw [slotAt_of_le (by simp), slotAt_of_le (by simp; omega)]

/-- At the boundary, the slots hold the new values. -/
theorem slotContents_insertLocals (h : insertLocals boundary inserted locals = .ok widened) :
    ((slotContents widened).drop boundary).take (slotCount inserted) = slotContents inserted := by
  obtain ⟨before, after, missing, rfl, h2, h3, rfl⟩ := insertLocals_eq_ok.1 h
  simp only [slotContents_append, List.append_assoc, slotContents_replicate_top]
  rw [← List.append_assoc, List.drop_left' (by simp; omega), List.take_left' (by simp)]

end FreshLocal
