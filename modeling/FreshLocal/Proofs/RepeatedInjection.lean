import FreshLocal.Proofs.DeclaredSlots

/-!
# Injections in a row

The injection may be put in front of itself. What the first one sends on is taken
by the second: it starts the body again, sets its own new variable, and sees the
setting of the first one as a part of the body. Some frames that it gets were
spelled out before and some were kept, so it may keep or spell out others than
the first one did.

**Argument.** By induction over the injections, the outermost first. What it does
to an event and what those behind it do add up to what one injection of as many
integers does (`BodyEvent.Moved.trans`). Frames do not add up one by one, but
their histories do: integers that are put in at the boundary stand in front of
those that were put in there before (`insertLocals_insertLocals`).

* `Stage.chain`, `Stage.Passes`: a stage some times in a row.
* `Insertion.ofIntegers`: some integers at the boundary.
* `BodyEvent.Moved`: what they make of one event.
* `MethodInjection.atOnce_of_passes`: **injections in a row are one** of as many integers.
-/

namespace FreshLocal

/-! ## Stages in a row -/

namespace Stage

variable {ε σ τ : Type}

/-- The states of a stage that stands some times in front of a sink, and that of the sink. -/
def Chain (σ τ : Type) : Nat → Type
  | 0 => τ
  | n + 1 => σ × Chain σ τ n

/-- The stage some times in a row, in front of a sink. -/
def chain (stage : Stage ε σ) (sink : Sink ε τ) : (n : Nat) → Sink ε (Chain σ τ n)
  | 0 => sink
  | n + 1 => stage.into (chain stage sink n)

/-- The same state for each of the stages. -/
def Chain.all (s : σ) (t : τ) : (n : Nat) → Chain σ τ n
  | 0 => t
  | n + 1 => (s, all s t n)

/-- The state of the sink. -/
def Chain.last : (n : Nat) → Chain σ τ n → τ
  | 0, t => t
  | n + 1, (_, behind) => last n behind

/-- **Some events pass a stage `n` times in a row**: each time it starts in the same state, it
refuses nothing, and behind the last one these events are recorded. -/
def Passes (stage : Stage ε σ) (n : Nat) (s : σ) (events sent : List ε) : Prop :=
  ∃ c, Sink.feed (stage.chain .record n) (.all s [] n) events = (c, none) ∧
    (c.last n).reverse = sent

variable {stage : Stage ε σ} {s t : σ} {n : Nat} {events sent : List ε}

theorem feed_record {recorded recorded' : List ε} :
    Sink.feed .record recorded events = (recorded', none) ↔
      recorded' = events.reverse ++ recorded := by
  induction events generalizing recorded with
  | nil => simp [Sink.feed, eq_comm]
  | cons e events ih =>
    rw [Sink.feed_cons]
    simp [Sink.record, ih]

theorem passes_zero : stage.Passes 0 s events sent ↔ sent = events := by
  have hrecorded : ∀ recorded : List ε, Sink.feed .record [] events = (recorded, none) →
      recorded.reverse = events := by
    intro recorded h
    rw [feed_record.1 h]
    simp
  constructor
  · rintro ⟨recorded, h, rfl⟩
    exact hrecorded recorded h
  · rintro rfl
    exact ⟨sent.reverse, feed_record.2 (List.append_nil _).symm, List.reverse_reverse sent⟩

/-- **The outermost stage** sends what passes the others. -/
theorem passes_succ : stage.Passes (n + 1) s events sent ↔
    ∃ t middle, stage.run s events = (t, middle, none) ∧ stage.Passes n s middle sent := by
  unfold Passes
  constructor
  · rintro ⟨⟨t, c⟩, h, hsent⟩
    obtain ⟨middle, hrun, hfeed⟩ := feed_into.1 h
    exact ⟨t, middle, hrun, c, hfeed, hsent⟩
  · rintro ⟨t, middle, hrun, c, hfeed, hsent⟩
    exact ⟨(t, c), feed_into.2 ⟨middle, hrun, hfeed⟩, hsent⟩

end Stage

/-! ## Moving twice -/

section Lists

variable {α β γ : Type} {R : α → β → Prop} {S : β → γ → Prop} {T : α → γ → Prop}

theorem forall₂_trans {xs : List α} {ys : List β} {zs : List γ}
    (h : ∀ x y z, R x y → S y z → T x z) (hxy : List.Forall₂ R xs ys)
    (hyz : List.Forall₂ S ys zs) : List.Forall₂ T xs zs := by
  induction hxy generalizing zs with
  | nil => cases hyz; exact .nil
  | cons hx _ ih =>
    cases hyz with
    | cons hy hrest => exact .cons (h _ _ _ hx hy) (ih hrest)

end Lists

/-! Slots that are moved by `f` and then by `g` are moved as by `h`. -/

section Slots

variable {f g h : UInt16 → Except Fault UInt16}
  (hfg : ∀ s s' s'', f s = .ok s' → g s' = .ok s'' → h s = .ok s'')

include hfg

theorem Instruction.mapSlotM_trans {i i' i'' : Instruction} (hi : i.mapSlotM f = .ok i')
    (hi' : i'.mapSlotM g = .ok i'') : i.mapSlotM h = .ok i'' := by
  have one {make : UInt16 → Instruction} {s : UInt16} (hmake : make <$> f s = .ok i')
      (hmap : ∀ s', (make s').mapSlotM g = make <$> g s') : make <$> h s = .ok i'' := by
    obtain ⟨s', hs, rfl⟩ := Except.map_eq_ok.1 hmake
    rw [hmap] at hi'
    obtain ⟨s'', hs', rfl⟩ := Except.map_eq_ok.1 hi'
    exact Except.map_eq_ok.2 ⟨s'', hfg _ _ _ hs hs', rfl⟩
  cases i with
  | load kind slot => exact one hi fun _ => rfl
  | store kind slot => exact one hi fun _ => rfl
  | iinc slot amount => exact one hi fun _ => rfl
  | ret slot => exact one hi fun _ => rfl
  | _ => cases hi; exact hi'

theorem Operation.mapSlotM_trans {op op' op'' : Operation Label} (hop : op.mapSlotM f = .ok op')
    (hop' : op'.mapSlotM g = .ok op'') : op.mapSlotM h = .ok op'' := by
  cases op with
  | plain i =>
    obtain ⟨i', hi, rfl⟩ := Except.map_eq_ok.1 hop
    obtain ⟨i'', hi', rfl⟩ := Except.map_eq_ok.1 hop'
    exact Except.map_eq_ok.2 ⟨i'', Instruction.mapSlotM_trans hfg hi hi', rfl⟩
  | branch b => cases hop; exact hop'

theorem AnnotatedType.mapSlotsM_trans {a a' a'' : AnnotatedType Label}
    (ha : a.mapSlotsM f = .ok a') (ha' : a'.mapSlotsM g = .ok a'') : a.mapSlotsM h = .ok a'' := by
  obtain ⟨target', htarget, ha⟩ := Except.bind_eq_ok.1 ha
  cases ha
  obtain ⟨target'', htarget', ha'⟩ := Except.bind_eq_ok.1 ha'
  cases ha'
  refine Except.bind_eq_ok.2 ⟨target'', ?_, rfl⟩
  cases ht : a.target with
  | localVariable isResource ranges =>
    rw [ht] at htarget
    obtain ⟨ranges', hranges, rfl⟩ := Except.map_eq_ok.1 htarget
    obtain ⟨ranges'', hranges', rfl⟩ := Except.map_eq_ok.1 htarget'
    refine Except.map_eq_ok.2 ⟨ranges'', mapM_eq_ok.2 ?_, rfl⟩
    refine forall₂_trans ?_ (mapM_eq_ok.1 hranges) (mapM_eq_ok.1 hranges')
    intro r r' r'' hr hr'
    obtain ⟨s', hs, hr⟩ := Except.bind_eq_ok.1 hr
    cases hr
    obtain ⟨s'', hs', hr'⟩ := Except.bind_eq_ok.1 hr'
    cases hr'
    exact Except.bind_eq_ok.2 ⟨s'', hfg _ _ _ hs hs', rfl⟩
  | handler _ | instruction _ _ | typeArgument _ _ _ =>
    rw [ht] at htarget
    cases htarget
    exact htarget'

end Slots

/-- **Types that are put in at the same slot again** stand in front of those that were put in
first. -/
theorem insertLocals_insertLocals {κ π : Type} {boundary : Nat}
    {first second locals widened widened' : List (VerificationType κ π)}
    (h : insertLocals boundary first locals = .ok widened)
    (h' : insertLocals boundary second widened = .ok widened') :
    insertLocals boundary (second ++ first) locals = .ok widened' := by
  obtain ⟨before, after, missing, rfl, hcount, hend, rfl⟩ := insertLocals_eq_ok.1 h
  -- what was put in first starts at the boundary, so the list is cut in front of it
  have hcut : slotCount (before ++ List.replicate missing .top) + 0 = boundary := by
    rw [slotCount_append, slotCount_replicate_top]
    exact hcount
  have hagain : insertLocals boundary second
      (before ++ List.replicate missing .top ++ (first ++ after)) =
      .ok (before ++ List.replicate missing .top ++ [] ++ second ++ (first ++ after)) :=
    insertLocals_eq_ok.2 ⟨_, _, 0, rfl, hcut, .inl rfl, rfl⟩
  rw [← List.append_assoc, h'] at hagain
  cases hagain
  exact insertLocals_eq_ok.2 ⟨before, after, missing, rfl, hcount, hend, by simp⟩

/-! ## Integers at the boundary -/

namespace Insertion

variable {m : DeclaredMethod} {n : Nat} {p q : Insertion} {slot slot' : UInt16}

/-- Some integers at the boundary of a method, where frames are spelled out. -/
def ofIntegers (m : DeclaredMethod) (n : Nat) : Insertion :=
  { ofMethod m .spellOut with range := ⟨m.first, n⟩, inserted := List.replicate n .integer }

/-- Requests for integers are granted one after the other. -/
theorem allocateAll_replicate_int (n : Nat) : ∀ p : Insertion, p.range.stop + n ≤ 65535 →
    p.allocateAll (List.replicate n (.ofBase .int)) =
      ({ p with
          range := { p.range with width := p.range.width + n }
          inserted := p.inserted ++ List.replicate n .integer },
        (List.range n).map fun j => .ok (UInt16.ofNat (p.range.stop + j))) := by
  induction n with
  | zero => intro p _; simp [allocateAll]
  | succ n ih =>
    intro p hroom
    have hfirst : p.allocate (.ofBase .int) = .ok (UInt16.ofNat p.range.stop, { p with
        range := { p.range with width := p.range.width + 1 }
        inserted := p.inserted ++ [.integer] }) :=
      allocate_eq_ok.2 ⟨show p.range.stop + 1 ≤ 65535 by omega, rfl, rfl⟩
    have hnext : p.range.stop + 1 + n ≤ 65535 := by omega
    have hrest := ih { p with
      range := { p.range with width := p.range.width + 1 }
      inserted := p.inserted ++ [.integer] } hnext
    rw [List.replicate_succ, allocateAll, hfirst]
    dsimp only
    rw [hrest, List.range_succ_eq_map]
    simp only [List.map_cons, List.map_map, List.append_assoc, List.singleton_append,
      List.replicate_succ, Nat.add_zero, Prod.mk.injEq, List.cons.injEq, true_and]
    refine ⟨by rw [Nat.add_assoc, Nat.add_comm 1 n], ?_⟩
    refine List.map_congr_left fun j _ => ?_
    simp only [Function.comp_apply, SlotRange.stop, Nat.succ_eq_add_one]
    congr 2
    omega

/-- **One request for each integer** puts them there, if 16 bits can hold their slots. -/
theorem allocateAll_integers (hroom : m.first + n ≤ 65535) :
    (ofMethod m .spellOut).allocateAll (List.replicate n (.ofBase .int)) =
      (ofIntegers m n, (List.range n).map fun j => .ok (UInt16.ofNat (m.first + j))) := by
  rw [allocateAll_replicate_int n (ofMethod m .spellOut) hroom]
  simp [ofIntegers, ofMethod, SlotRange.emptyAt, SlotRange.stop]

/-- **Where `n` slots at a boundary move the others**: those below stay, the others move up by `n`,
and so does the number of slots that is declared. -/
structure Shifts (p : Insertion) (boundary n : Nat) : Prop where
  relocate_iff : ∀ slot slot', p.relocate slot = .ok slot' ↔
    (slot.toNat < boundary ∧ slot'.toNat = slot.toNat) ∨
      (boundary ≤ slot.toNat ∧ slot'.toNat = slot.toNat + n)
  limit_iff : ∀ declared declared', (Allocator.insertion p).limit declared = .ok declared' ↔
    declared'.toNat = declared.toNat + n

theorem shifts_ofIntegers (m : DeclaredMethod) (n : Nat) : (ofIntegers m n).Shifts m.first n :=
  ⟨fun _ _ => relocate_eq_ok, fun _ _ => slot16_eq_ok⟩

/-- **A history with room** for the new variables at each frame is carried over. -/
theorem takeFrames_of_history (frames : List CodeFrame) :
    ∀ (p : Insertion) (history : List (List CodeType)), p.policy = .spellOut →
      Frame.run? p.before frames = some history →
      (∀ l ∈ history, ∃ w, insertLocals p.boundary p.inserted l = .ok w) →
      ∃ carried : List CodeFrame, p.takeFrames frames = carried.map .ok := by
  induction frames with
  | nil => exact fun p _ _ _ _ => ⟨[], rfl⟩
  | cons f rest ih =>
    intro p history hp hhistory hroom
    rw [Frame.run?] at hhistory
    split at hhistory
    · cases hhistory
    · rename_i locals hlocals
      obtain ⟨later, hlater, rfl⟩ := Option.map_eq_some_iff.1 hhistory
      have hfit : ¬ f.Unfit p.boundary p.before := by
        rintro (⟨count, hchop⟩ | ⟨locals', hlocals', hstraddles⟩)
        · rw [Frame.locals?_eq_none.2 ⟨count, hchop⟩] at hlocals
          cases hlocals
        · cases hlocals.symm.trans hlocals'
          exact insertLocals_isOk_iff.1 (hroom _ List.mem_cons_self) hstraddles
      obtain ⟨⟨f', locals'⟩, hcarry⟩ := (carry_isOk_iff hp).2 hfit
      obtain rfl : locals' = locals :=
        Option.some.inj ((carry_cases hcarry).1.symm.trans hlocals)
      obtain ⟨carried, hcarried⟩ := ih { p with previous := some locals' } later hp hlater
        fun l hl => hroom l (List.mem_cons_of_mem _ hl)
      refine ⟨f' :: carried, ?_⟩
      simp only [takeFrames, takeFrame, hcarry, List.map_cons, hcarried]

end Insertion

/-! ## One event -/

/-- **What integers at the boundary make of an event.** A frame becomes a frame; what that means
depends on the frames before. -/
def BodyEvent.Moved (p : Insertion) : BodyEvent → BodyEvent → Prop
  | frame _, e => ∃ f', e = frame f'
  | e, e' => e.Carried (.insertion p) e'

namespace BodyEvent

variable {p q r : Insertion} {e e' e'' : BodyEvent}

theorem Carried.moved (hrange : q.range = p.range) (h : e.Carried (.insertion q) e') :
    e.Moved p e' := by
  have hrelocate : (Allocator.insertion q).relocate = (Allocator.insertion p).relocate := by
    funext slot
    show q.relocate slot = p.relocate slot
    unfold Insertion.relocate Insertion.boundary
    rw [hrange]
  have hlimit : (Allocator.insertion q).limit = (Allocator.insertion p).limit := by
    funext declared
    simp only [Allocator.limit, Allocator.width, hrange]
  cases e with
  | operation op =>
    obtain ⟨op', hop, rfl⟩ := h
    rw [hrelocate] at hop
    exact ⟨op', hop, rfl⟩
  | localVariable isGeneric v =>
    obtain ⟨slot, hslot, rfl⟩ := h
    rw [hrelocate] at hslot
    exact ⟨slot, hslot, rfl⟩
  | annotatedType x =>
    obtain ⟨x', hx, rfl⟩ := h
    rw [hrelocate] at hx
    exact ⟨x', hx, rfl⟩
  | limits maxStack maxLocals =>
    obtain ⟨declared, hdeclared, rfl⟩ := h
    rw [hlimit] at hdeclared
    exact ⟨declared, hdeclared, rfl⟩
  | frame f =>
    obtain ⟨f', -, rfl⟩ := h
    exact ⟨f', rfl⟩
  | start _ _ | label _ | lineNumber _ _ | handler _ | «attribute» _ => exact h

theorem Moved.not_isStart (h : e.Moved p e') (he : ¬ e.IsStart) : ¬ e'.IsStart := by
  cases e with
  | start _ _ => exact absurd trivial he
  | operation op => obtain ⟨op', -, rfl⟩ := h; exact id
  | localVariable isGeneric v => obtain ⟨slot, -, rfl⟩ := h; exact id
  | annotatedType x => obtain ⟨x', -, rfl⟩ := h; exact id
  | limits maxStack maxLocals => obtain ⟨declared, -, rfl⟩ := h; exact id
  | frame f => obtain ⟨f', rfl⟩ := h; exact id
  | label _ | lineNumber _ _ | handler _ | «attribute» _ => cases h; exact id

/-- **Moving by one integer and then by `n`** is moving by one more. -/
theorem Moved.trans {m : DeclaredMethod} {n : Nat} (h : e.Moved (.ofIntegers m 1) e')
    (h' : e'.Moved (.ofIntegers m n) e'') : e.Moved (.ofIntegers m (n + 1)) e'' := by
  have hone := Insertion.shifts_ofIntegers m 1
  have hmore := Insertion.shifts_ofIntegers m n
  have hall := Insertion.shifts_ofIntegers m (n + 1)
  have hslot : ∀ s s' s'', (Insertion.ofIntegers m 1).relocate s = .ok s' →
      (Insertion.ofIntegers m n).relocate s' = .ok s'' →
        (Insertion.ofIntegers m (n + 1)).relocate s = .ok s'' := by
    intro s s' s'' hs hs'
    have hfirst := (hone.relocate_iff _ _).1 hs
    have hsecond := (hmore.relocate_iff _ _).1 hs'
    exact (hall.relocate_iff _ _).2 (by omega)
  cases e with
  | operation op =>
    obtain ⟨op', hop, rfl⟩ := h
    obtain ⟨op'', hop', rfl⟩ := h'
    exact ⟨op'', Operation.mapSlotM_trans hslot hop hop', rfl⟩
  | localVariable isGeneric v =>
    obtain ⟨s', hs, rfl⟩ := h
    obtain ⟨s'', hs', rfl⟩ := h'
    exact ⟨s'', hslot _ _ _ hs hs', rfl⟩
  | annotatedType x =>
    obtain ⟨x', hx, rfl⟩ := h
    obtain ⟨x'', hx', rfl⟩ := h'
    exact ⟨x'', AnnotatedType.mapSlotsM_trans hslot hx hx', rfl⟩
  | limits maxStack maxLocals =>
    obtain ⟨declared, hdeclared, rfl⟩ := h
    obtain ⟨declared', hdeclared', rfl⟩ := h'
    have hfirst := (hone.limit_iff _ _).1 hdeclared
    have hsecond := (hmore.limit_iff _ _).1 hdeclared'
    refine ⟨declared', (hall.limit_iff _ _).2 (by omega), ?_⟩
    have hmax : max (max maxStack 1) 1 = max maxStack 1 := by
      simp only [Max.max]
      split_ifs <;> simp_all
    rw [hmax]
  | frame f =>
    obtain ⟨f', rfl⟩ := h
    obtain ⟨f'', rfl⟩ := h'
    exact ⟨f'', rfl⟩
  | start _ _ | label _ | lineNumber _ _ | handler _ | «attribute» _ => cases h; exact h'

end BodyEvent

namespace MethodInjection

open BodyEvent Insertion

variable {m : DeclaredMethod} {n : Nat} {maxStack maxLocals : UInt16} {j : MethodInjection}
  {events sent behind : List BodyEvent}

/-- The events that set `n` new variables of a method, one behind the other. -/
def settings (m : DeclaredMethod) (n : Nat) : List BodyEvent :=
  (List.range n).flatMap fun j => [.operation (.plain (.nullary .iconstM1)),
    .operation (.plain (.store .int (UInt16.ofNat (m.first + j))))]

/-- At each frame of a body, the locals are sent on with `n` integers at the boundary, and the stack
is sent on as it is. -/
def Widened (m : DeclaredMethod) (n : Nat) (frames frames' : List CodeFrame) : Prop :=
  ∃ history widened, Frame.run? m.implicit frames = some history ∧
    Frame.run? m.implicit frames' = some widened ∧
    List.Forall₂ (fun l w => insertLocals m.first (List.replicate n .integer) l = .ok w)
      history widened ∧
    frames'.map Frame.stack = frames.map Frame.stack

/-- **What `n` injections make of the events behind the start**, behind the settings of their new
variables. -/
structure AtOnce (m : DeclaredMethod) (n : Nat) (events behind : List BodyEvent) : Prop where
  room : m.first + n ≤ 65536
  moved : List.Forall₂ (BodyEvent.Moved (ofIntegers m n)) events behind
  widened : Widened m n (frames events) (frames behind)

/-- **One injection.** -/
theorem atOnce_run (he : ∀ e ∈ events, ¬ e.IsStart)
    (h : Stage.run step (.ofAllocator (Options.standard.allocator m))
      (.start maxStack maxLocals :: events) = (j, sent, none)) :
    ∃ behind, sent = .start maxStack maxLocals :: (settings m 1 ++ behind) ∧
      m.first + 1 ≤ 65535 ∧ AtOnce m 1 events behind := by
  obtain ⟨fresh, a, behind, ha, hrun, rfl⟩ := run_start h
  obtain ⟨⟨slot, p⟩, hallocate, hslot⟩ := Except.map_eq_ok.1 ha
  cases hslot
  obtain ⟨hroom, rfl, hp⟩ := allocate_eq_ok.1 hallocate
  have hp : p = ofIntegers m 1 := hp
  subst hp
  have hroom : m.first + 1 ≤ 65535 := hroom
  refine ⟨behind, rfl, hroom, by omega, ?_, ?_⟩
  · -- frames change what is remembered of the locals, not where variables go
    obtain ⟨-, -, hall⟩ := run_carried
      (P := fun a => ∃ p, a = .insertion p ∧ p.range = (ofIntegers m 1).range) he
      (by
        rintro a f - ⟨p, rfl, hrange⟩
        refine ⟨(p.takeFrame f).1, rfl, ?_⟩
        simp only [takeFrame]
        split <;> exact hrange) ⟨_, rfl, rfl⟩ hrun
    refine hall.imp ?_
    rintro e e' ⟨a, ⟨p, rfl, hrange⟩, hcarried⟩
    exact hcarried.moved hrange
  · have htaken := takeFrames_run_events he rfl hrun
    exact takeFrames_eq_ok (frames events) (frames behind) (ofIntegers m 1) m.implicit
      (fun locals hprevious => by cases hprevious) htaken

theorem settings_succ (m : DeclaredMethod) (n : Nat) : settings m (n + 1) = settings m n ++
    [.operation (.plain (.nullary .iconstM1)),
      .operation (.plain (.store .int (UInt16.ofNat (m.first + n))))] := by
  rw [settings, List.range_succ, List.flatMap_append]
  rfl

theorem not_isStart_of_mem_settings {e : BodyEvent} (he : e ∈ settings m n) : ¬ e.IsStart := by
  obtain ⟨j, -, hj⟩ := List.mem_flatMap.1 he
  simp only [List.mem_cons, List.not_mem_nil, or_false] at hj
  rcases hj with rfl | rfl <;> exact id

/-- The setting of a new variable is moved like everything else in a body: its slot is at the
boundary, so it goes up. -/
theorem settings_moved (hroom : m.first + 1 ≤ 65535)
    (h : List.Forall₂ (BodyEvent.Moved (ofIntegers m n)) (settings m 1 ++ events) sent) :
    ∃ behind, sent = .operation (.plain (.nullary .iconstM1)) ::
        .operation (.plain (.store .int (UInt16.ofNat (m.first + n)))) :: behind ∧
      m.first + n ≤ 65535 ∧ List.Forall₂ (BodyEvent.Moved (ofIntegers m n)) events behind := by
  obtain ⟨e, rest, ⟨op, hop, rfl⟩, hrest, rfl⟩ := List.forall₂_cons_left_iff.1 h
  obtain ⟨e', behind, ⟨op', hop', rfl⟩, hbehind, rfl⟩ := List.forall₂_cons_left_iff.1 hrest
  cases hop
  obtain ⟨i, hi, rfl⟩ := Except.map_eq_ok.1 hop'
  obtain ⟨slot, hslot, rfl⟩ := Except.map_eq_ok.1 hi
  have hfirst : (UInt16.ofNat m.first).toNat = m.first :=
    UInt16.toNat_ofNat_of_lt' (by unfold UInt16.size; omega)
  have hmoved := ((shifts_ofIntegers m n).relocate_iff (UInt16.ofNat m.first) slot).1 hslot
  have hlt := slot.toNat_lt
  have hslot : slot = UInt16.ofNat (m.first + n) := by
    rw [← UInt16.toNat_inj, UInt16.toNat_ofNat_of_lt' (by unfold UInt16.size; omega)]
    omega
  exact ⟨behind, by rw [hslot], by omega, hbehind⟩

/-- **One injection and then `n`** are one more. -/
theorem AtOnce.trans (h : AtOnce m 1 events behind) (hroom : m.first + 1 ≤ 65535)
    (h' : AtOnce m n (settings m 1 ++ behind) sent) :
    ∃ behind', sent = .operation (.plain (.nullary .iconstM1)) ::
        .operation (.plain (.store .int (UInt16.ofNat (m.first + n)))) :: behind' ∧
      AtOnce m (n + 1) events behind' := by
  obtain ⟨behind', rfl, hroom', hmoved⟩ := settings_moved hroom h'.moved
  refine ⟨behind', rfl, by omega, forall₂_trans ?_ h.moved hmoved, ?_⟩
  · exact fun e e' e'' he he' => he.trans he'
  · -- the settings have no frame, so both histories are those of the events behind them
    obtain ⟨history, widened, hhistory, hwidened, hinserted, hstacks⟩ := h.widened
    obtain ⟨middle, widened', hmiddle, hwidened', hinserted', hstacks'⟩ := h'.widened
    obtain rfl : widened = middle := Option.some.inj (hwidened.symm.trans hmiddle)
    refine ⟨history, widened', hhistory, hwidened', forall₂_trans ?_ hinserted hinserted',
      hstacks'.trans hstacks⟩
    intro l w w' hw hw'
    have hboth := insertLocals_insertLocals hw hw'
    rwa [List.replicate_append_replicate] at hboth

/-- **Injections in a row**, behind the start of the body. -/
theorem passes_eq (hn : 1 ≤ n) (he : ∀ e ∈ events, ¬ e.IsStart)
    (h : Stage.Passes step n (.ofAllocator (Options.standard.allocator m))
      (.start maxStack maxLocals :: events) sent) :
    ∃ behind, sent = .start maxStack maxLocals :: (settings m n ++ behind) ∧
      AtOnce m n events behind := by
  -- the outermost injection comes first, and what it sends passes the others
  induction n, hn using Nat.le_induction generalizing events sent with
  | base =>
    obtain ⟨j, middle, hrun, hpasses⟩ := Stage.passes_succ.1 h
    obtain rfl := Stage.passes_zero.1 hpasses
    obtain ⟨behind, hsent, -, honce⟩ := atOnce_run he hrun
    exact ⟨behind, hsent, honce⟩
  | succ n hn ih =>
    obtain ⟨j, middle, hrun, hpasses⟩ := Stage.passes_succ.1 h
    obtain ⟨behind, rfl, hroom, honce⟩ := atOnce_run he hrun
    have hlater : ∀ e ∈ settings m 1 ++ behind, ¬ e.IsStart := by
      intro e hmem
      rcases List.mem_append.1 hmem with hset | hbehind
      · exact not_isStart_of_mem_settings hset
      · obtain ⟨e₀, he₀, hmoved⟩ := exists_of_mem_right honce.moved hbehind
        exact hmoved.not_isStart (he e₀ he₀)
    obtain ⟨behind', rfl, hmore⟩ := ih hlater hpasses
    obtain ⟨behind'', rfl, hall⟩ := honce.trans hroom hmore
    refine ⟨behind'', ?_, hall⟩
    rw [settings_succ, List.append_assoc]
    rfl

/-- **Injections in a row are one of as many integers.** Let some events, of which only the first
starts a body, pass the injection `n` times in a row, each time for the same method. Then the body
starts as before, and sets the `n` new variables in order, from the first slot behind the arguments
on. Every other event is moved as `n` integers at the boundary move it: slots below it stay, others
and the declared number go up by `n`. The locals at each frame are the original ones with the
integers at the boundary, which is what the frames mean that one insertion of these integers sends
on; one request for each of them leads to it, if 16 bits can hold them. -/
theorem atOnce_of_passes (m : DeclaredMethod) (hn : 1 ≤ n) (he : ∀ e ∈ events, ¬ e.IsStart)
    (h : Stage.Passes step n (.ofAllocator (Options.standard.allocator m))
      (.start maxStack maxLocals :: events) sent) :
    (∃ behind, sent = .start maxStack maxLocals :: (settings m n ++ behind) ∧
      AtOnce m n events behind ∧
      ∃ once, (ofIntegers m n).takeFrames (frames events) = once.map .ok ∧
        Frame.run? m.implicit once = Frame.run? m.implicit (frames behind) ∧
        once.map Frame.stack = (frames behind).map Frame.stack) ∧
    (ofIntegers m n).Shifts m.first n ∧
    (m.first + n ≤ 65535 → (ofMethod m .spellOut).allocateAll (List.replicate n (.ofBase .int)) =
      (ofIntegers m n, (List.range n).map fun j => .ok (UInt16.ofNat (m.first + j)))) := by
  obtain ⟨behind, hsent, honce⟩ := passes_eq hn he h
  refine ⟨⟨behind, hsent, honce, ?_⟩, shifts_ofIntegers m n, allocateAll_integers⟩
  obtain ⟨history, widened, hhistory, hwidened, hinserted, hstacks⟩ := honce.widened
  have hroom : ∀ l ∈ history, ∃ w,
      insertLocals m.first (List.replicate n .integer) l = .ok w := by
    intro l hl
    obtain ⟨w, -, hw⟩ := exists_of_mem_right hinserted.flip hl
    exact ⟨w, hw⟩
  obtain ⟨once, htaken⟩ := takeFrames_of_history _ (ofIntegers m n) history rfl hhistory hroom
  obtain ⟨history', widened', hhistory', hwidened', hinserted', hstacks'⟩ :=
    takeFrames_eq_ok _ once (ofIntegers m n) m.implicit (fun _ hprevious => by cases hprevious)
      htaken
  obtain rfl : history = history' := Option.some.inj (hhistory.symm.trans hhistory')
  -- both histories put the integers into the same locals
  have hunique : Relator.RightUnique fun l w : List CodeType =>
      insertLocals m.first (List.replicate n .integer) l = .ok w :=
    fun l w w' hw hw' => Except.ok.inj (hw.symm.trans hw')
  obtain rfl : widened = widened' := hunique.forall₂ hinserted hinserted'
  exact ⟨once, htaken, hwidened'.trans hwidened.symm, hstacks'.trans hstacks.symm⟩

/-- The events of a body with three frames: the second takes away all locals, the third keeps
those of the second. -/
def framedEvents : List BodyEvent := [
  .operation (.plain (.store .long 1)), .frame (.append [.long]), .frame (.chop 2),
  .operation (.plain (.load .int 0)), .frame .same, .limits 2 3]

/-- The same events behind two injections. -/
def framedTwice : List BodyEvent := [
  .operation (.plain (.store .long 3)), .frame (.full [.integer, .integer, .integer, .long] []),
  .frame (.full [.top, .integer, .integer] []), .operation (.plain (.load .int 0)),
  .frame .same, .limits 2 5]

/-- In a method with one argument, the second injection keeps the frame that the first one kept. -/
theorem atOnce_of_passes_twice :
    Stage.Passes step 2 (.ofAllocator (Options.standard.allocator Insertion.sampleMethod))
      (.start 2 3 :: framedEvents)
      (.start 2 3 :: (settings Insertion.sampleMethod 2 ++ framedTwice)) ∧
    AtOnce Insertion.sampleMethod 2 framedEvents framedTwice := by
  have hpasses :
      Stage.Passes step 2 (.ofAllocator (Options.standard.allocator Insertion.sampleMethod))
        (.start 2 3 :: framedEvents)
        (.start 2 3 :: (settings Insertion.sampleMethod 2 ++ framedTwice)) :=
    ⟨_, rfl, rfl⟩
  have hstart : ∀ e ∈ framedEvents, ¬ e.IsStart := by
    simp [framedEvents, BodyEvent.IsStart]
  obtain ⟨⟨behind, hsent, honce, -⟩, -⟩ :=
    atOnce_of_passes Insertion.sampleMethod (by decide) hstart hpasses
  obtain rfl : framedTwice = behind := List.append_cancel_left (List.cons.inj hsent).2
  exact ⟨hpasses, honce⟩

end MethodInjection

end FreshLocal
