import FreshLocal.Proofs.BodyEvents
import FreshLocal.Proofs.FrameHistory
import FreshLocal.Proofs.Isolation
import FreshLocal.Proofs.StorableInjection

/-!
# The slots that a body declares

A body declares how many slots its frame on the stack of the machine gets. Each
access, each variable of the tables, each annotation and the locals at each
frame have to stay within that number. The new variable takes one slot, and the
body that is sent on declares one more: no slot moves by more than one, and the
locals at a frame, filled up to the boundary, grow by one as well.

* `BodyEvent.SlotsWithin`, `Frame.HistoryWithin`, `BodyEvent.Within`: the slots of
  one event, the locals at the frames, and both.
* `MethodInjection.takeFrames_run_events`: the frames that are sent on are those
  of `Insertion.takeFrames`.
* `MethodInjection.within_run`: **what is sent on stays within what it declares**.
-/

namespace FreshLocal

/-! ## Staying within a number of slots -/

/-- The slots that the target of an annotation refers to. -/
def AnnotationTarget.slots {π : Type} : AnnotationTarget π → List UInt16
  | localVariable _ ranges => ranges.map LocalRange.slot
  | _ => []

/-- The locals at each of some frames in a row take at most `n` slots. Behind a frame that has no
locals there is nothing more to ask. -/
def Frame.HistoryWithin {κ π : Type} (n : Nat) (before : List (VerificationType κ π)) :
    List (Frame κ π) → Prop
  | [] => True
  | f :: rest =>
    ∀ locals, f.locals? before = some locals → slotCount locals ≤ n ∧ HistoryWithin n locals rest

namespace BodyEvent

/-- The slots that an event names are among the first `n`, with both slots of an access to a value
that takes two. -/
def SlotsWithin (n : Nat) : BodyEvent → Prop
  | operation (.plain i) => ∀ slot ∈ i.slot?, slot.toNat + i.accessWidth ≤ n
  | localVariable _ v => v.slot.toNat < n
  | annotatedType a => ∀ slot ∈ a.target.slots, slot.toNat < n
  | _ => True

/-- **Everything in some events stays within the first `n` slots**; `implicit` are the locals before
the first frame. -/
structure Within (implicit : List CodeType) (n : Nat) (events : List BodyEvent) : Prop where
  slots : ∀ e ∈ events, e.SlotsWithin n
  frames : Frame.HistoryWithin n implicit (frames events)

end BodyEvent

/-- Where all frames have locals, these are to be counted. -/
theorem Frame.historyWithin_iff {κ π : Type} {n : Nat} {frames : List (Frame κ π)} :
    ∀ {before : List (VerificationType κ π)} {history : List (List (VerificationType κ π))},
      run? before frames = some history →
        (HistoryWithin n before frames ↔ ∀ locals ∈ history, slotCount locals ≤ n) := by
  induction frames with
  | nil =>
    intro before history h
    cases h
    simp [HistoryWithin]
  | cons f rest ih =>
    intro before history h
    rw [run?] at h
    cases hf : f.locals? before with
    | none => rw [hf] at h; cases h
    | some locals =>
      rw [hf] at h
      obtain ⟨later, hlater, rfl⟩ := Option.map_eq_some_iff.1 h
      simp only [HistoryWithin, hf, Option.some.injEq, forall_eq', List.forall_mem_cons, ih hlater]

theorem Frame.HistoryWithin.mono {κ π : Type} {n k : Nat} (hnk : n ≤ k)
    {frames : List (Frame κ π)} : ∀ {before : List (VerificationType κ π)},
      HistoryWithin n before frames → HistoryWithin k before frames := by
  induction frames with
  | nil => exact fun _ => trivial
  | cons f rest ih =>
    intro before h locals hf
    obtain ⟨hcount, hlater⟩ := h locals hf
    exact ⟨hcount.trans hnk, ih hlater⟩

/-- New locals at the boundary count on top of the others, which are filled up to the boundary. -/
theorem slotCount_insertLocals {κ π : Type} {boundary : Nat}
    {inserted locals widened : List (VerificationType κ π)}
    (h : insertLocals boundary inserted locals = .ok widened) :
    slotCount widened = max (slotCount locals) boundary + slotCount inserted := by
  obtain ⟨before, after, missing, rfl, hboundary, hend, rfl⟩ := insertLocals_eq_ok.1 h
  simp only [slotCount_append, slotCount_replicate_top]
  rcases hend with rfl | rfl
  · omega
  · simp only [slotCount_nil]
    omega

/-! ## The allocator -/

namespace Allocator

theorem width_takeFrame (a : Allocator) (f : CodeFrame) : (a.takeFrame f).1.width = a.width := by
  cases a with
  | insertion p =>
    simp only [takeFrame, width, Insertion.takeFrame]
    split <;> rfl
  | extension x => rfl

/-- The declared number of slots grows by the slots that are new. -/
theorem limit_eq_ok {a : Allocator} {declared n : UInt16} (h : a.limit declared = .ok n) :
    n.toNat = declared.toNat + a.width := slot16_eq_ok.1 h

/-- No slot moves by more than one if one slot is new. -/
def MovesByOne (a : Allocator) : Prop := a.width = 1 ∧ ∀ slot, a.moved slot ≤ slot + 1

theorem MovesByOne.takeFrame {a : Allocator} (ha : a.MovesByOne) (f : CodeFrame) :
    (a.takeFrame f).1.MovesByOne := by
  obtain ⟨hwidth, hmoved⟩ := ha
  exact ⟨(a.width_takeFrame f).trans hwidth, by rw [moved_takeFrame]; exact hmoved⟩

end Allocator

/-- One new variable behind all others takes as many slots as its type. -/
theorem Extension.width_of_allocate {maxLocals slot : UInt16} {type : FieldType} {x : Extension}
    (h : (Extension.begin maxLocals).allocate type = .ok (slot, x)) : x.width = type.width := by
  simp only [allocate, begin] at h
  split at h
  · cases h
  · rename_i range hextend
    cases h
    unfold SlotRange.extend at hextend
    obtain ⟨-, hextend⟩ | ⟨-, hextend⟩ := ite_eq_iff.1 hextend
    · cases hextend
      exact Nat.zero_add _
    · cases hextend

/-- What the new variable of a method does to the allocator. -/
theorem Options.movesByOne (options : Options) (m : DeclaredMethod) {maxLocals fresh : UInt16}
    {a : Allocator}
    (h : ((options.allocator m).begin maxLocals).allocate (.ofBase .int) = .ok (fresh, a)) :
    a.MovesByOne ∧ fresh.toNat ≤ max m.first maxLocals.toNat := by
  have hslot := options.allocate_int m h
  cases hp : options.placement with
  | behindArguments =>
    rw [hp] at hslot
    obtain ⟨hfresh, hmoved⟩ := hslot
    simp only [allocator, hp, Allocator.begin, Allocator.allocate] at h
    obtain ⟨⟨slot, p⟩, hallocate, h⟩ := Except.map_eq_ok.1 h
    cases h
    obtain ⟨-, -, rfl⟩ := Insertion.allocate_eq_ok.1 hallocate
    refine ⟨⟨rfl, fun slot => ?_⟩, by omega⟩
    rw [hmoved]
    split <;> omega
  | behindAll =>
    rw [hp] at hslot
    obtain ⟨hfresh, hmoved⟩ := hslot
    simp only [allocator, hp, Allocator.begin, Allocator.allocate] at h
    obtain ⟨⟨slot, x⟩, hallocate, h⟩ := Except.map_eq_ok.1 h
    cases h
    have hwidth : x.width = 1 := Extension.width_of_allocate hallocate
    exact ⟨⟨hwidth, fun slot => by rw [hmoved]; omega⟩, by rw [hfresh]; omega⟩

/-! ## One event -/

theorem AnnotatedType.slots_of_mapSlotsM {π : Type} {slot : UInt16 → Except Fault UInt16}
    {a a' : AnnotatedType π} (h : a.mapSlotsM slot = .ok a') :
    List.Forall₂ (fun s s' => slot s = .ok s') a.target.slots a'.target.slots := by
  obtain ⟨visible, target, path, body⟩ := a
  obtain ⟨target', htarget, h⟩ := Except.bind_eq_ok.1 h
  cases h
  cases target with
  | localVariable isResource ranges =>
    obtain ⟨ranges', hranges, rfl⟩ := Except.map_eq_ok.1 htarget
    show List.Forall₂ _ (ranges.map LocalRange.slot) (ranges'.map LocalRange.slot)
    rw [List.forall₂_map_left_iff, List.forall₂_map_right_iff]
    refine (mapM_eq_ok.1 hranges).imp fun r r' hr => ?_
    obtain ⟨s', hs, hr⟩ := Except.bind_eq_ok.1 hr
    cases hr
    exact hs
  | handler _ | instruction _ _ | typeArgument _ _ _ => cases htarget; exact .nil

namespace BodyEvent

variable {a : Allocator} {e e' : BodyEvent} {n : Nat} {events sent : List BodyEvent}

/-- **One event that is sent on** needs at most one slot more than it did. -/
theorem Carried.slotsWithin (ha : a.MovesByOne) (h : e.Carried a e') (he : e.SlotsWithin n) :
    e'.SlotsWithin (n + 1) := by
  -- a slot moves by one at most, and what is stored in it is as wide as before
  have hmoved : ∀ {s s' : UInt16}, a.relocate s = .ok s' → s'.toNat ≤ s.toNat + 1 := by
    intro s s' hs
    rw [Allocator.toNat_of_relocate hs]
    exact ha.2 _
  cases e with
  | operation op =>
    obtain ⟨op', hop, rfl⟩ := h
    cases op with
    | branch b => cases hop; trivial
    | plain i =>
      obtain ⟨i', hi, rfl⟩ := Except.map_eq_ok.1 hop
      intro s' hs'
      obtain ⟨hwidth, ⟨hnone, rfl⟩ | ⟨s, t, hs, hrelocate, ht⟩⟩ := Instruction.mapSlotM_eq_ok hi
      · rw [hnone] at hs'
        cases hs'
      · rw [ht] at hs'
        cases hs'
        have hle := he s hs
        have hstep := hmoved hrelocate
        rw [hwidth]
        omega
  | localVariable generic v =>
    obtain ⟨s', hrelocate, rfl⟩ := h
    have hlt : v.slot.toNat < n := he
    have hstep := hmoved hrelocate
    show s'.toNat < n + 1
    omega
  | annotatedType x =>
    obtain ⟨x', hx, rfl⟩ := h
    intro s' hs'
    obtain ⟨s, hs, hrelocate⟩ := exists_of_mem_right (AnnotatedType.slots_of_mapSlotsM hx) hs'
    have hlt := he s hs
    have hstep := hmoved hrelocate
    omega
  | frame f => obtain ⟨f', -, rfl⟩ := h; trivial
  | limits s l => obtain ⟨m, -, rfl⟩ := h; trivial
  | start _ _ | label _ | lineNumber _ _ | handler _ | «attribute» _ => cases h; trivial

/-- The limits of a body go through the allocator, and nothing else becomes limits. -/
theorem limits_carried {R : Allocator → Prop}
    (h : List.Forall₂ (fun e e' => ∃ a, R a ∧ e.Carried a e') events sent) :
    List.Forall₂ (fun x x' => ∃ a : Allocator, R a ∧ x'.1 = max x.1 1 ∧ a.limit x.2 = .ok x'.2)
      (events.filterMap limits?) (sent.filterMap limits?) := by
  refine List.rel_filterMap ?_ h
  rintro e e' ⟨a, ha, hcarried⟩
  cases e with
  | limits s l => obtain ⟨m, hm, rfl⟩ := hcarried; exact .some ⟨a, ha, rfl, hm⟩
  | operation op => obtain ⟨op', -, rfl⟩ := hcarried; exact .none
  | localVariable generic v => obtain ⟨s', -, rfl⟩ := hcarried; exact .none
  | annotatedType x => obtain ⟨x', -, rfl⟩ := hcarried; exact .none
  | frame f => obtain ⟨f', -, rfl⟩ := hcarried; exact .none
  | start _ _ | label _ | lineNumber _ _ | handler _ | «attribute» _ => cases hcarried; exact .none

/-- A frame becomes a frame, and nothing else does. -/
theorem Carried.codeFrame? (h : e.Carried a e') :
    Option.Rel (fun f f' => (a.takeFrame f).2 = .ok f') e.codeFrame? e'.codeFrame? := by
  cases e with
  | frame f => obtain ⟨f', hf', rfl⟩ := h; exact .some hf'
  | operation op => obtain ⟨op', -, rfl⟩ := h; exact .none
  | localVariable generic v => obtain ⟨s', -, rfl⟩ := h; exact .none
  | annotatedType x => obtain ⟨x', -, rfl⟩ := h; exact .none
  | limits s l => obtain ⟨m, -, rfl⟩ := h; exact .none
  | start _ _ | label _ | lineNumber _ _ | handler _ | «attribute» _ => cases h; exact .none

end BodyEvent

/-! ## The frames of a body -/

namespace MethodInjection

open BodyEvent

variable {i j : MethodInjection} {events sent : List BodyEvent}

theorem step_frame {a : Allocator} {f : CodeFrame} {result : Except Fault CodeFrame}
    (h : i.allocator.takeFrame f = (a, result)) (hf : (step i (.frame f)).fault = none) :
    ∃ f', result = .ok f' ∧ (step i (.frame f)).events = [.frame f'] ∧
      (step i (.frame f)).state.allocator = a := by
  cases result with
  | error fault => simp [step, h, Step.stop] at hf
  | ok f' =>
    exact ⟨f', rfl, by simp [step, h, Step.send, Step.events], by simp [step, h, Step.send]⟩

/-- **The frames that are sent on** are what the new slots behind the arguments make of the frames
of the body. -/
theorem takeFrames_run_events {p : Insertion} (he : ∀ e ∈ events, ¬ e.IsStart)
    (hi : i.allocator = .insertion p) (h : Stage.run step i events = (j, sent, none)) :
    p.takeFrames (frames events) = (frames sent).map .ok := by
  -- the allocator changes with each frame, and only then
  induction events generalizing i p sent with
  | nil => obtain ⟨-, rfl⟩ := Stage.run_nil.1 h; rfl
  | cons e rest ih =>
    obtain ⟨hfault, behind, hrest, rfl⟩ := Stage.run_cons.1 h
    have hlater : ∀ e ∈ rest, ¬ e.IsStart := fun e h => he e (List.mem_cons_of_mem _ h)
    by_cases hf : ∃ f, e = .frame f
    · obtain ⟨f, rfl⟩ := hf
      have htaken : i.allocator.takeFrame f =
          (.insertion (p.takeFrame f).1, (p.takeFrame f).2) := by rw [hi]; rfl
      obtain ⟨f', hf', hsent, hnext⟩ := step_frame htaken hfault
      have hframes := ih hlater hnext hrest
      show (p.takeFrame f).2 :: (p.takeFrame f).1.takeFrames (frames rest) = _
      rw [hf', hframes, hsent]
      rfl
    · obtain ⟨e', hsent, hcarried, -, hsame | ⟨f, hef, -⟩⟩ :=
        step_carried (he e List.mem_cons_self) hfault
      · have hframes := ih hlater (hsame.trans hi) hrest
        have hnone : e.codeFrame? = none := by
          cases e <;> first | rfl | exact absurd ⟨_, rfl⟩ hf
        have hnone' : e'.codeFrame? = none := by
          have hrel := hcarried.codeFrame?
          rw [hnone] at hrel
          generalize e'.codeFrame? = x at hrel ⊢
          cases hrel
          rfl
        rw [hsent]
        show p.takeFrames ((e :: rest).filterMap codeFrame?) =
          ((e' :: behind).filterMap codeFrame?).map .ok
        rw [List.filterMap_cons_none hnone, List.filterMap_cons_none hnone']
        exact hframes
      · exact absurd ⟨f, hef⟩ hf

/-- New slots behind all others leave the frames as they are. -/
theorem frames_run_extension {x : Extension} (he : ∀ e ∈ events, ¬ e.IsStart)
    (hi : i.allocator = .extension x) (h : Stage.run step i events = (j, sent, none)) :
    frames sent = frames events := by
  obtain ⟨-, -, hall⟩ := run_carried (P := fun a => a = .extension x) he
    (fun a f _ ha => by subst ha; rfl) hi h
  have htaken := List.rel_filterMap (P := fun f f' => Except.ok (ε := Fault) f = .ok f')
    (by rintro e e' ⟨a, rfl, hcarried⟩; exact hcarried.codeFrame?) hall
  have hsame : List.Forall₂ Eq (frames events) (frames sent) :=
    htaken.imp fun f f' hf => Except.ok.inj hf
  rw [List.forall₂_eq_eq_eq] at hsame
  exact hsame.symm

/-- **The locals at the frames that are sent on** take at most one slot more. -/
theorem historyWithin_run {options : Options} {m : DeclaredMethod} {maxLocals fresh : UInt16}
    {a : Allocator} {n : Nat} (he : ∀ e ∈ events, ¬ e.IsStart)
    (ha : ((options.allocator m).begin maxLocals).allocate (.ofBase .int) = .ok (fresh, a))
    (hi : i.allocator = a) (h : Stage.run step i events = (j, sent, none)) (hfirst : m.first ≤ n)
    (hn : Frame.HistoryWithin n m.implicit (frames events)) :
    Frame.HistoryWithin (n + 1) m.implicit (frames sent) := by
  cases hp : options.placement with
  | behindArguments =>
    simp only [Options.allocator, hp, Allocator.begin, Allocator.allocate] at ha
    obtain ⟨⟨slot, p⟩, hallocate, ha⟩ := Except.map_eq_ok.1 ha
    cases ha
    obtain ⟨-, -, rfl⟩ := Insertion.allocate_eq_ok.1 hallocate
    have htaken := takeFrames_run_events he hi h
    -- no frame was seen yet, so nothing is to be linked
    obtain ⟨history, widened, hhistory, hwidened, hinserted, -⟩ :=
      Insertion.takeFrames_eq_ok (frames events) (frames sent) _ m.implicit
        (fun locals hprevious => by cases hprevious) htaken
    have hold := (Frame.historyWithin_iff hhistory).1 hn
    -- the locals sent are those of a frame before, filled up to the boundary, and one integer
    refine (Frame.historyWithin_iff hwidened).2 fun w hw => ?_
    obtain ⟨l, hl, hlw⟩ := exists_of_mem_right hinserted hw
    have hcount := slotCount_insertLocals hlw
    have hle := hold l hl
    have hone : slotCount ([.integer] : List CodeType) = 1 := rfl
    change slotCount w = max (slotCount l) m.first + slotCount [.integer] at hcount
    omega
  | behindAll =>
    simp only [Options.allocator, hp, Allocator.begin, Allocator.allocate] at ha
    obtain ⟨⟨slot, x⟩, -, ha⟩ := Except.map_eq_ok.1 ha
    cases ha
    rw [frames_run_extension he hi h]
    exact Frame.HistoryWithin.mono (Nat.le_succ n) hn

/-- **What is sent on stays within what it declares.** Let the injection take every event of a body
that is read without a fault. Let the declared slots cover the receiver and the arguments, every
access, the variables of the tables and of the annotations, and the locals at each frame. Then the
body that is sent on ends with limits of one slot more, which 16 bits can hold, and these cover all
the same of the body that is sent on; the setting of the new variable is a part of it. -/
theorem within_run (options : Options) (m : DeclaredMethod) (b : Body)
    (hread : b.events.2 = none)
    (h : Stage.run step (.ofAllocator (options.allocator m)) b.events.1 = (i, sent, none))
    (hfirst : m.first ≤ b.maxLocals.toNat)
    (hwithin : Within m.implicit b.maxLocals.toNat b.events.1) :
    ∃ maxLocals : UInt16, sent.filterMap limits? = [(max b.maxStack 1, maxLocals)] ∧
      maxLocals.toNat = b.maxLocals.toNat + 1 ∧ b.maxLocals.toNat + 1 ≤ 65535 ∧
      Within m.implicit maxLocals.toNat sent := by
  obtain ⟨attached, -, -, hevents⟩ := b.events_eq_of_none hread
  have hlimits : b.events.1.filterMap limits? = [(b.maxStack, b.maxLocals)] := by
    rw [hevents]
    exact Body.limits_events
  obtain ⟨body, hbody, hstart⟩ := b.events_eq
  rw [hbody] at h hlimits hwithin
  obtain ⟨fresh, a, behind, ha, hrun, rfl⟩ := run_start h
  obtain ⟨hone, hslot⟩ := options.movesByOne m ha
  obtain ⟨-, -, hall⟩ := run_carried (P := Allocator.MovesByOne) hstart
    (fun a' f _ ha' => ha'.takeFrame f) hone hrun
  have hframes := historyWithin_run hstart ha rfl hrun hfirst hwithin.frames
  -- the limits are sent once, since the reader sends them once
  have hcarried := limits_carried hall
  have hrest : body.filterMap limits? = [(b.maxStack, b.maxLocals)] := hlimits
  rw [hrest] at hcarried
  obtain ⟨⟨maxStack, maxLocals⟩, hsent⟩ := List.length_eq_one_iff.1 hcarried.length_eq.symm
  rw [hsent] at hcarried
  obtain ⟨⟨a', ha', hstack, hlimit⟩, -⟩ := List.forall₂_cons.1 hcarried
  have hcount := Allocator.limit_eq_ok hlimit
  rw [ha'.1] at hcount
  have hbound := maxLocals.toNat_lt
  change maxLocals.toNat = b.maxLocals.toNat + 1 at hcount
  change maxStack = max b.maxStack 1 at hstack
  refine ⟨maxLocals, ?_, hcount, by omega, ?_⟩
  · rw [← hstack]
    exact hsent
  rw [hcount]
  refine ⟨fun e' he' => ?_, hframes⟩
  simp only [List.mem_cons] at he'
  obtain rfl | rfl | rfl | he' := he'
  · trivial
  · intro slot hslot
    cases hslot
  · -- the new variable stands behind the arguments or behind all slots
    intro slot hs
    cases hs
    show fresh.toNat + 1 ≤ b.maxLocals.toNat + 1
    omega
  · obtain ⟨e, he, a', ha', hee'⟩ := exists_of_mem_right hall he'
    exact hee'.slotsWithin ha' (hwithin.slots e (List.mem_cons_of_mem _ he))

/-- A body that uses all of its slots: the last two hold a `long`, which is in a frame and has a
name. -/
def fullBody : Body where
  maxStack := 2
  maxLocals := 3
  length := 3
  operations := [(0, .plain (.nullary ⟨0x0a, by decide⟩)), (1, .plain (.store .long 1)),
    (2, .branch (.exit .returnVoid))]
  handlers := []
  frames := [(2, .append [.long])]
  lines := []
  locals := [⟨2, 1, 5, 6, 1⟩]
  genericLocals := []
  annotations := []
  attributes := []

theorem fullBody_events : fullBody.events =
    ([.start 2 3, .operation (.plain (.nullary ⟨0x0a, by decide⟩)),
      .operation (.plain (.store .long 1)), .label (fullBody.label 2), .frame (.append [.long]),
      .operation (.branch (.exit .returnVoid)), .label (fullBody.label 3),
      .localVariable false ⟨5, 6, fullBody.label 2, fullBody.label 3, 1⟩, .limits 2 3], none) := by
  rw [Body.events_eq_of_attached [(0, .plain (.nullary ⟨0x0a, by decide⟩), []),
    (1, .plain (.store .long 1), []), (2, .branch (.exit .returnVoid), [.append [.long]])] rfl,
    Body.eventsWith]
  simp only [List.flatMap_cons, Body.eventsAt_eq, Body.lastEvents_eq]
  rfl

/-- The setting of the new variable and the `long` behind it fit into four slots. -/
theorem within_run_full : ∃ i sent,
    fullBody.events.2 = none ∧
    Stage.run step (.ofAllocator (Options.standard.allocator Insertion.sampleMethod))
      fullBody.events.1 = (i, sent, none) ∧
    Insertion.sampleMethod.first ≤ fullBody.maxLocals.toNat ∧
    Within Insertion.sampleMethod.implicit fullBody.maxLocals.toNat fullBody.events.1 ∧
    sent.filterMap limits? = [(2, 4)] ∧ Within Insertion.sampleMethod.implicit 4 sent := by
  have hread : fullBody.events.2 = none := by rw [fullBody_events]
  obtain ⟨i, sent, hrun⟩ : ∃ i sent,
      Stage.run step (.ofAllocator (Options.standard.allocator Insertion.sampleMethod))
        fullBody.events.1 = (i, sent, none) := by
    rw [fullBody_events]
    exact ⟨_, _, rfl⟩
  have hwithin : Within Insertion.sampleMethod.implicit fullBody.maxLocals.toNat
      fullBody.events.1 := by
    rw [fullBody_events]
    refine ⟨?_, ?_⟩
    · simp [SlotsWithin, Instruction.slot?, Instruction.accessWidth, ValueKind.width, fullBody]
    · show Frame.HistoryWithin 3 [.integer] [.append [.long]]
      intro locals hlocals
      cases hlocals
      exact ⟨by decide, trivial⟩
  obtain ⟨maxLocals, hlimits, hcount, -, hsent⟩ :=
    within_run Options.standard Insertion.sampleMethod fullBody hread hrun (by decide) hwithin
  obtain rfl : maxLocals = 4 := UInt16.toNat_inj.1 hcount
  exact ⟨i, sent, hread, hrun, by decide, hwithin, hlimits, hsent⟩

end MethodInjection

end FreshLocal
