import FreshLocal.Body
import FreshLocal.Proofs.Results

/-!
# Changing how positions are given

The parts of a body are over a type of positions. Where a change of positions
may fail, it succeeds on a part exactly if it does on each position of the part,
and then the part is the one with these positions.

* `Operation.map`, `Frame.map`, `Handler.map`, `AnnotatedType.map`: a part with other positions.
* `Operation.mapM_ok`, `Frame.mapM_ok`, ...: **a change that may fail** is such a map.
-/

namespace FreshLocal

variable {ε π π' π'' κ κ' κ'' α β : Type}

/-- A list of steps that succeeds is a map, for any function that says what the steps yield. -/
theorem mapM_ok {f : α → Except ε β} {g : α → β} {xs : List α} {ys : List β}
    (h : xs.mapM f = .ok ys) (hg : ∀ x ∈ xs, ∀ y, f x = .ok y → y = g x) :
    (∀ x ∈ xs, f x = .ok (g x)) ∧ ys = xs.map g := by
  rw [mapM_eq_ok] at h
  induction h with
  | nil => simp
  | @cons x y xs ys hxy _ ih =>
    obtain ⟨hall, rfl⟩ := ih fun x hx => hg x (by simp [hx])
    obtain rfl := hg x (by simp) y hxy
    rw [List.forall_mem_cons]
    exact ⟨⟨hxy, hall⟩, rfl⟩

namespace Branch

/-- The branch with its positions changed. -/
def map (f : π → π') : Branch π → Branch π'
  | jump condition target => jump condition (f target)
  | goto target => goto (f target)
  | jsr target => jsr (f target)
  | tableSwitch default_ low targets => tableSwitch (f default_) low (targets.map f)
  | lookupSwitch default_ cases =>
    lookupSwitch (f default_) (cases.map fun (key, target) => (key, f target))
  | exit e => exit e

theorem mapM_id (f : π → π') (b : Branch π) :
    Id.run (b.mapM fun x => (pure (f x) : Id π')) = b.map f := by
  cases b <;> simp [mapM, map]

theorem mapM_ok {f : π → Except ε π'} {g : π → π'} {b : Branch π} {b' : Branch π'}
    (h : b.mapM f = .ok b') (hg : ∀ x ∈ b.targets, ∀ y, f x = .ok y → y = g x) :
    (∀ x ∈ b.targets, f x = .ok (g x)) ∧ b' = b.map g := by
  cases b with
  | jump c t | goto t | jsr t =>
    obtain ⟨y, hy, rfl⟩ := Except.map_eq_ok.1 h
    obtain rfl := hg t (by simp [targets]) y hy
    simp only [targets, List.mem_singleton, forall_eq]
    exact ⟨hy, rfl⟩
  | exit e => cases h; simp [targets, map]
  | tableSwitch d low ts =>
    obtain ⟨y, hy, h⟩ := Except.bind_eq_ok.1 h
    obtain ⟨ys, hys, h⟩ := Except.bind_eq_ok.1 h
    cases h
    simp only [targets, List.forall_mem_cons] at hg ⊢
    obtain rfl := hg.1 y hy
    obtain ⟨hall, rfl⟩ := FreshLocal.mapM_ok hys hg.2
    exact ⟨⟨hy, hall⟩, rfl⟩
  | lookupSwitch d cs =>
    obtain ⟨y, hy, h⟩ := Except.bind_eq_ok.1 h
    obtain ⟨ys, hys, h⟩ := Except.bind_eq_ok.1 h
    cases h
    simp only [targets, List.forall_mem_cons, List.forall_mem_map] at hg ⊢
    obtain rfl := hg.1 y hy
    obtain ⟨hall, rfl⟩ := FreshLocal.mapM_ok (g := fun c => (c.1, g c.2)) hys (by
      intro c hc z hz
      obtain ⟨t, ht, rfl⟩ := Except.map_eq_ok.1 hz
      rw [hg.2 c hc t ht])
    refine ⟨⟨hy, fun c hc => ?_⟩, rfl⟩
    obtain ⟨t, ht, heq⟩ := Except.map_eq_ok.1 (hall c hc)
    rw [ht, (Prod.mk.inj heq).2]

theorem targets_map (f : π → π') (b : Branch π) : (b.map f).targets = b.targets.map f := by
  cases b <;> simp [map, targets]

theorem map_map (f : π → π') (g : π' → π'') (b : Branch π) :
    (b.map f).map g = b.map fun x => g (f x) := by
  cases b <;> simp [map]

theorem map_congr {f g : π → π'} {b : Branch π} (h : ∀ x ∈ b.targets, f x = g x) :
    b.map f = b.map g := by
  cases b with
  | tableSwitch d low ts | lookupSwitch d ts =>
    simp only [targets, List.forall_mem_cons, List.forall_mem_map] at h
    simp only [map, h.1, tableSwitch.injEq, lookupSwitch.injEq, true_and]
    refine List.map_congr_left fun x hx => ?_
    simp only [h.2 x hx]
  | _ => simp_all [map, targets]

end Branch

namespace Operation

/-- The operation with its positions changed. -/
def map (f : π → π') : Operation π → Operation π'
  | plain i => plain i
  | branch b => branch (b.map f)

theorem mapM_id (f : π → π') (op : Operation π) :
    Id.run (op.mapM fun x => (pure (f x) : Id π')) = op.map f := by
  cases op with
  | plain i => rfl
  | branch b => exact congrArg branch (b.mapM_id f)

theorem targets_map (f : π → π') (op : Operation π) : (op.map f).targets = op.targets.map f := by
  cases op with
  | plain i => rfl
  | branch b => exact b.targets_map f

theorem map_map (f : π → π') (g : π' → π'') (op : Operation π) :
    (op.map f).map g = op.map fun x => g (f x) := by
  cases op with
  | plain i => rfl
  | branch b => exact congrArg branch (b.map_map f g)

theorem map_congr {f g : π → π'} {op : Operation π} (h : ∀ x ∈ op.targets, f x = g x) :
    op.map f = op.map g := by
  cases op with
  | plain i => rfl
  | branch b => exact congrArg branch (Branch.map_congr h)

end Operation

namespace Handler

/-- The handler with its positions changed. -/
def map (f : π → π') (h : Handler π) : Handler π' :=
  ⟨f h.start, f h.stop, f h.target, h.catchType⟩

theorem mapM_ok {f : π → Except ε π'} {g : π → π'} {a : Handler π} {a' : Handler π'}
    (h : a.mapM f = .ok a') (hg : ∀ x ∈ a.positions, ∀ y, f x = .ok y → y = g x) :
    (∀ x ∈ a.positions, f x = .ok (g x)) ∧ a' = a.map g := by
  obtain ⟨start, hstart, h⟩ := Except.bind_eq_ok.1 h
  obtain ⟨stop, hstop, h⟩ := Except.bind_eq_ok.1 h
  obtain ⟨target, htarget, h⟩ := Except.bind_eq_ok.1 h
  cases h
  simp only [positions, List.forall_mem_cons] at hg ⊢
  obtain rfl := hg.1 start hstart
  obtain rfl := hg.2.1 stop hstop
  obtain rfl := hg.2.2.1 target htarget
  exact ⟨⟨hstart, hstop, htarget, by simp⟩, rfl⟩

theorem positions_map (f : π → π') (h : Handler π) :
    (h.map f).positions = h.positions.map f := rfl

theorem map_map (f : π → π') (g : π' → π'') (h : Handler π) :
    (h.map f).map g = h.map fun x => g (f x) := rfl

theorem map_congr {f g : π → π'} {h : Handler π} (hp : ∀ x ∈ h.positions, f x = g x) :
    h.map f = h.map g := by
  simp only [positions, List.forall_mem_cons] at hp
  simp only [map, hp.1, hp.2.1, hp.2.2.1]

end Handler

namespace AnnotationTarget

/-- The target with its positions changed. -/
def map (f : π → π') : AnnotationTarget π → AnnotationTarget π'
  | localVariable isResource ranges =>
    localVariable isResource (ranges.map fun r => ⟨f r.start, f r.stop, r.slot⟩)
  | handler index => handler index
  | instruction kind at_ => instruction kind (f at_)
  | typeArgument kind at_ index => typeArgument kind (f at_) index

theorem mapM_id (f : π → π') (t : AnnotationTarget π) :
    Id.run (t.mapM fun x => (pure (f x) : Id π')) = t.map f := by
  cases t <;> simp [mapM, map]

theorem mapM_ok {f : π → Except ε π'} {g : π → π'} {t : AnnotationTarget π}
    {t' : AnnotationTarget π'} (h : t.mapM f = .ok t')
    (hg : ∀ x ∈ t.positions, ∀ y, f x = .ok y → y = g x) :
    (∀ x ∈ t.positions, f x = .ok (g x)) ∧ t' = t.map g := by
  cases t with
  | localVariable isResource ranges =>
    obtain ⟨rs, hrs, rfl⟩ := Except.map_eq_ok.1 h
    simp only [positions, List.mem_flatMap, forall_exists_index, and_imp] at hg ⊢
    obtain ⟨hall, rfl⟩ := FreshLocal.mapM_ok
      (g := fun r => (⟨g r.start, g r.stop, r.slot⟩ : LocalRange π')) hrs (by
        intro r hr z hz
        obtain ⟨start, hstart, hz⟩ := Except.bind_eq_ok.1 hz
        obtain ⟨stop, hstop, hz⟩ := Except.bind_eq_ok.1 hz
        cases hz
        rw [hg r.start r hr (by simp) start hstart, hg r.stop r hr (by simp) stop hstop])
    refine ⟨fun x r hr hx => ?_, rfl⟩
    obtain ⟨start, hstart, hz⟩ := Except.bind_eq_ok.1 (hall r hr)
    obtain ⟨stop, hstop, hz⟩ := Except.bind_eq_ok.1 hz
    cases hz
    rw [List.mem_cons, List.mem_singleton] at hx
    obtain rfl | rfl := hx
    · exact hstart
    · exact hstop
  | handler index => cases h; simp [positions, map]
  | instruction kind at_ | typeArgument kind at_ index =>
    obtain ⟨y, hy, rfl⟩ := Except.map_eq_ok.1 h
    simp only [positions, List.mem_singleton, forall_eq] at hg ⊢
    obtain rfl := hg y hy
    exact ⟨hy, rfl⟩

theorem map_congr {f g : π → π'} {t : AnnotationTarget π} (h : ∀ x ∈ t.positions, f x = g x) :
    t.map f = t.map g := by
  cases t with
  | localVariable isResource ranges =>
    simp only [positions, List.mem_flatMap, forall_exists_index, and_imp] at h
    simp only [map, localVariable.injEq, true_and]
    refine List.map_congr_left fun r hr => ?_
    rw [h r.start r hr (by simp), h r.stop r hr (by simp)]
  | handler index => rfl
  | instruction kind at_ | typeArgument kind at_ index =>
    simp only [positions, List.mem_singleton, forall_eq] at h
    simp only [map, h]

end AnnotationTarget

namespace AnnotatedType

/-- The annotated type with its positions changed. -/
def map (f : π → π') (a : AnnotatedType π) : AnnotatedType π' :=
  ⟨a.visible, a.target.map f, a.path, a.body⟩

theorem mapM_id (f : π → π') (a : AnnotatedType π) :
    Id.run (a.mapM fun x => (pure (f x) : Id π')) = a.map f :=
  congrArg (fun t => (⟨a.visible, t, a.path, a.body⟩ : AnnotatedType π')) (a.target.mapM_id f)

theorem mapM_ok {f : π → Except ε π'} {g : π → π'} {a : AnnotatedType π} {a' : AnnotatedType π'}
    (h : a.mapM f = .ok a') (hg : ∀ x ∈ a.target.positions, ∀ y, f x = .ok y → y = g x) :
    (∀ x ∈ a.target.positions, f x = .ok (g x)) ∧ a' = a.map g := by
  obtain ⟨t, ht, h⟩ := Except.bind_eq_ok.1 h
  cases h
  obtain ⟨hall, rfl⟩ := AnnotationTarget.mapM_ok ht hg
  exact ⟨hall, rfl⟩

theorem positions_map (f : π → π') (a : AnnotatedType π) :
    (a.map f).target.positions = a.target.positions.map f := by
  obtain ⟨visible, target, path, body⟩ := a
  cases target <;> simp [map, AnnotationTarget.map, AnnotationTarget.positions, List.flatMap_map,
    List.map_flatMap]

theorem map_map (f : π → π') (g : π' → π'') (a : AnnotatedType π) :
    (a.map f).map g = a.map fun x => g (f x) := by
  obtain ⟨visible, target, path, body⟩ := a
  cases target <;> simp [map, AnnotationTarget.map]

theorem map_congr {f g : π → π'} {a : AnnotatedType π} (h : ∀ x ∈ a.target.positions, f x = g x) :
    a.map f = a.map g :=
  congrArg (fun t => (⟨a.visible, t, a.path, a.body⟩ : AnnotatedType π'))
    (AnnotationTarget.map_congr h)

end AnnotatedType

namespace VerificationType

/-- The type with its class and its position changed. -/
def map (onClass : κ → κ') (onMade : π → π') : VerificationType κ π → VerificationType κ' π'
  | top => top
  | integer => integer
  | float => float
  | double => double
  | long => long
  | null => null
  | uninitializedThis => uninitializedThis
  | object name => object (onClass name)
  | uninitialized made => uninitialized (onMade made)

theorem mapM_id (onClass : κ → κ') (onMade : π → π') (t : VerificationType κ π) :
    Id.run (t.mapM (fun x => (pure (onClass x) : Id κ')) fun x => pure (onMade x)) =
      t.map onClass onMade := by
  cases t <;> rfl

end VerificationType

namespace Frame

/-- The frame with its classes and its positions changed. -/
def map (onClass : κ → κ') (onMade : π → π') : Frame κ π → Frame κ' π'
  | same => same
  | sameOne t => sameOne (t.map onClass onMade)
  | chop count => chop count
  | append more => append (more.map (VerificationType.map onClass onMade))
  | full locals stack =>
    full (locals.map (VerificationType.map onClass onMade))
      (stack.map (VerificationType.map onClass onMade))

theorem mapM_id (onClass : κ → κ') (onMade : π → π') (f : Frame κ π) :
    Id.run (f.mapM (fun x => (pure (onClass x) : Id κ')) fun x => pure (onMade x)) =
      f.map onClass onMade := by
  have hlist : ∀ ts : List (VerificationType κ π), Id.run (ts.mapM (m := Id)
      (VerificationType.mapM (fun x => pure (onClass x)) fun x => pure (onMade x))) =
        ts.map (VerificationType.map onClass onMade) := by
    intro ts
    induction ts with
    | nil => rfl
    | cons t ts ih =>
      rw [List.mapM_cons, List.map_cons, ← ih, ← VerificationType.mapM_id]
      rfl
  cases f with
  | same | chop _ => rfl
  | sameOne t => exact congrArg sameOne (t.mapM_id onClass onMade)
  | append more => exact congrArg append (hlist more)
  | full locals stack => exact congrArg₂ full (hlist locals) (hlist stack)

theorem types_map (onClass : κ → κ') (onMade : π → π') (f : Frame κ π) :
    (f.map onClass onMade).types = f.types.map (VerificationType.map onClass onMade) := by
  cases f <;> simp [map, types]

theorem map_congr {onClass onClass' : κ → κ'} {onMade onMade' : π → π'} {f : Frame κ π}
    (h : ∀ t ∈ f.types, t.map onClass onMade = t.map onClass' onMade') :
    f.map onClass onMade = f.map onClass' onMade' := by
  cases f with
  | same | chop _ => rfl
  | sameOne t => exact congrArg sameOne (h t (by simp [types]))
  | append more => exact congrArg append (List.map_congr_left h)
  | full locals stack =>
    simp only [types, List.mem_append] at h
    exact congrArg₂ full (List.map_congr_left fun t ht => h t (.inl ht))
      (List.map_congr_left fun t ht => h t (.inr ht))

/-- Only the positions of a frame matter for a change of positions. -/
theorem map_congr_positions {onMade onMade' : π → π'} {onClass : κ → κ'} {f : Frame κ π}
    (h : ∀ x ∈ f.positions, onMade x = onMade' x) :
    f.map onClass onMade = f.map onClass onMade' := by
  refine map_congr fun t ht => ?_
  cases t with
  | uninitialized made =>
    have hmade : made ∈ f.positions := List.mem_filterMap.2 ⟨_, ht, rfl⟩
    rw [VerificationType.map, VerificationType.map, h made hmade]
  | _ => rfl

theorem map_map (onClass : κ → κ') (onClass' : κ' → κ'') (onMade : π → π') (onMade' : π' → π'')
    (f : Frame κ π) : (f.map onClass onMade).map onClass' onMade' =
      f.map (fun x => onClass' (onClass x)) fun x => onMade' (onMade x) := by
  have htype : ∀ t : VerificationType κ π, (t.map onClass onMade).map onClass' onMade' =
      t.map (fun x => onClass' (onClass x)) fun x => onMade' (onMade x) := by
    intro t; cases t <;> rfl
  cases f <;> simp [map, htype]

theorem positions_map (onClass : κ → κ') (onMade : π → π') (f : Frame κ π) :
    (f.map onClass onMade).positions = f.positions.map onMade := by
  unfold positions
  rw [types_map, List.filterMap_map, List.map_filterMap]
  refine List.filterMap_congr fun t _ => ?_
  cases t <;> rfl

end Frame

end FreshLocal
