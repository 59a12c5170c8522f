import FreshLocal.Proofs.FrameHistory
import FreshLocal.Slot.Allocator

/-!
# Frames that are refused

A frame that cannot be carried over is refused, and more may be asked behind it.
New slots and the new places of old ones do not depend on frames. A frame does: a
refusal makes the insertion forget the locals of the last frame, so that the next
one counts as the first.

**Argument.** What is kept of frames is one field, the locals of the last one. To
forget it commutes with every request that is no frame, and undoes one that is. So
behind a refusal the insertion is the one that no frame was asked of. A frame that
changes nothing tells whether there was something to forget: it is kept behind
another frame, and spelled out as the first.

* `Insertion.ask`, `Insertion.askAll`: requests to an insertion, and its answers.
* `Insertion.forget_askAll`: **to forget the last frame** is not to have asked for any.
* `Insertion.Fitting`: the locals at the last frame leave the boundary free.
* `Insertion.refused_iff`: **which refused frames can be told** from frames never asked for.
-/

namespace FreshLocal

/-- What may be asked of an insertion while a body is carried over. -/
inductive SlotRequest
  | allocate (type : FieldType)
  | relocate (slot : UInt16)
  | limit (declared : UInt16)
  | frame (f : CodeFrame)

/-- Is a frame to be carried over? -/
def SlotRequest.isFrame : SlotRequest → Bool
  | frame _ => true
  | _ => false

/-- The answer to a request: a slot or a number of slots, or a frame. -/
inductive SlotAnswer
  | slot (answer : Except Fault UInt16)
  | frame (answer : Except Fault CodeFrame)

/-- The answer to a frame. -/
def SlotAnswer.frame? : SlotAnswer → Option (Except Fault CodeFrame)
  | frame answer => some answer
  | slot _ => none

namespace Insertion

/-- The insertion behind a request, and its answer. -/
def ask (p : Insertion) : SlotRequest → Insertion × SlotAnswer
  | .allocate type =>
    match p.allocate type with
    | .ok (slot, p) => (p, .slot (.ok slot))
    | .error fault => (p, .slot (.error fault))
  | .relocate slot => (p, .slot (p.relocate slot))
  | .limit declared => (p, .slot ((Allocator.insertion p).limit declared))
  | .frame f =>
    let (p, answer) := p.takeFrame f
    (p, .frame answer)

/-- The insertion behind some requests in turn, and its answers; a refusal ends nothing. -/
def askAll (p : Insertion) : List SlotRequest → Insertion × List SlotAnswer
  | [] => (p, [])
  | r :: rest =>
    let (p, answer) := p.ask r
    let (p, answers) := p.askAll rest
    (p, answer :: answers)

/-- The answer to the last frame among some requests. -/
def lastFrame? (p : Insertion) (asked : List SlotRequest) : Option (Except Fault CodeFrame) :=
  ((p.askAll asked).2.filterMap SlotAnswer.frame?).getLast?

/-- The insertion before any frame. -/
def forget (p : Insertion) : Insertion := { p with previous := none }

/-- The locals at the last frame have room for new variables at the boundary. -/
def Fitting (p : Insertion) : Prop :=
  ∀ locals, p.previous = some locals → ¬ Straddles p.boundary locals

variable {p : Insertion} {f : CodeFrame} {r : SlotRequest} {fault : Fault}

theorem askAll_cons (r : SlotRequest) (rest : List SlotRequest) :
    p.askAll (r :: rest) =
      (((p.ask r).1.askAll rest).1, (p.ask r).2 :: ((p.ask r).1.askAll rest).2) := rfl

theorem ask_frame (f : CodeFrame) :
    p.ask (.frame f) = ((p.takeFrame f).1, .frame (p.takeFrame f).2) := rfl

/-! ## To forget the last frame -/

/-- **A request that is no frame** does not look at the last frame. -/
theorem ask_forget (hr : r.isFrame = false) :
    p.forget.ask r = ((p.ask r).1.forget, (p.ask r).2) := by
  cases r with
  | allocate type =>
    simp only [ask, allocate, forget]
    cases p.range.extend type.width <;> rfl
  | relocate slot | limit declared => rfl
  | frame f => cases hr

/-- A frame leaves nothing behind but the locals that it has. -/
theorem forget_takeFrame (p : Insertion) (f : CodeFrame) :
    (p.takeFrame f).1.forget = p.forget := by
  unfold takeFrame
  cases p.carry f <;> rfl

/-- **To forget the last frame** is not to have asked for any. -/
theorem forget_askAll (p : Insertion) (asked : List SlotRequest) :
    (p.askAll asked).1.forget = (p.forget.askAll (asked.filter (!·.isFrame))).1 := by
  induction asked generalizing p with
  | nil => rfl
  | cons r rest ih =>
    rw [askAll_cons, ih]
    cases hr : r.isFrame with
    | false =>
      rw [List.filter_cons_of_pos (by simp [hr]), askAll_cons, ask_forget hr]
    | true =>
      rw [List.filter_cons_of_neg (by simp [hr])]
      cases r with
      | frame f => exact congrArg (fun q => (askAll q _).1) (forget_takeFrame p f)
      | _ => cases hr

/-- The answers to requests that are no frames do not depend on frames. -/
theorem answers_forget (later : List SlotRequest) (hlater : ∀ r ∈ later, r.isFrame = false) :
    (p.forget.askAll later).2 = (p.askAll later).2 := by
  induction later generalizing p with
  | nil => rfl
  | cons r rest ih =>
    obtain ⟨hr, hrest⟩ := List.forall_mem_cons.1 hlater
    rw [askAll_cons, askAll_cons, ask_forget hr, ih hrest]

/-- A frame that is refused makes the insertion forget. -/
theorem takeFrame_refused (h : (p.takeFrame f).2 = .error fault) :
    (p.takeFrame f).1 = p.forget := by
  unfold takeFrame at h ⊢
  cases hc : p.carry f with
  | ok r => rw [hc] at h; cases h
  | error cause => rfl

/-! ## The last frame -/

/-- One request keeps the boundary free. -/
theorem Fitting.ask (hp : p.Fitting) (r : SlotRequest) : (p.ask r).1.Fitting := by
  cases r with
  | allocate type =>
    simp only [Insertion.ask]
    cases ha : p.allocate type with
    | error fault => exact hp
    | ok x =>
      obtain ⟨slot, q⟩ := x
      obtain ⟨-, -, rfl⟩ := allocate_eq_ok.1 ha
      exact hp
  | relocate slot | limit declared => exact hp
  | frame f =>
    simp only [Insertion.ask, takeFrame]
    cases hc : p.carry f with
    | error cause => exact fun locals hnone => by cases hnone
    | ok x =>
      obtain ⟨g, locals⟩ := x
      obtain ⟨-, widened, hw, -⟩ := carry_cases hc
      intro locals' hsome
      cases hsome
      exact insertLocals_isOk_iff.1 ⟨widened, hw⟩

theorem Fitting.askAll (hp : p.Fitting) (asked : List SlotRequest) :
    (p.askAll asked).1.Fitting := by
  induction asked generalizing p with
  | nil => exact hp
  | cons r rest ih => exact ih (hp.ask r)

/-- **Whether the last frame is known** is seen from the answers: it is the last one that was asked
for, if that one was carried over, and the one known before if none was asked for. -/
theorem previous_askAll (p : Insertion) (asked : List SlotRequest) :
    (p.askAll asked).1.previous.isSome ↔
      (∃ g, p.lastFrame? asked = some (.ok g)) ∨ p.lastFrame? asked = none ∧ p.previous.isSome := by
  induction asked generalizing p with
  | nil => simp [askAll, lastFrame?]
  | cons r rest ih =>
    have hkeep : ∀ {q : Insertion} {answer : Except Fault UInt16},
        p.ask r = (q, .slot answer) → q.previous = p.previous →
        ((p.askAll (r :: rest)).1.previous.isSome ↔
          (∃ g, p.lastFrame? (r :: rest) = some (.ok g)) ∨
            p.lastFrame? (r :: rest) = none ∧ p.previous.isSome) := by
      intro q answer hask hsame
      have hlast : p.lastFrame? (r :: rest) = q.lastFrame? rest := by
        rw [lastFrame?, askAll_cons, hask, List.filterMap_cons_none rfl, lastFrame?]
      rw [hlast, askAll_cons, hask, ← hsame]
      exact ih q
    cases r with
    | allocate type =>
      cases ha : p.allocate type with
      | error fault => exact @hkeep p (.error fault) (by simp only [ask, ha]) rfl
      | ok x =>
        obtain ⟨slot, q⟩ := x
        refine @hkeep q (.ok slot) (by simp only [ask, ha]) ?_
        obtain ⟨-, -, rfl⟩ := allocate_eq_ok.1 ha
        rfl
    | relocate slot | limit declared => exact hkeep rfl rfl
    | frame f =>
      -- the frame is the last one only if no other follows it
      have hlast : p.lastFrame? (.frame f :: rest) =
          some (((p.takeFrame f).1.lastFrame? rest).getD (p.takeFrame f).2) := by
        have hanswer : (SlotAnswer.frame (p.takeFrame f).2).frame? = some (p.takeFrame f).2 := rfl
        rw [lastFrame?, askAll_cons, ask_frame, List.filterMap_cons_some hanswer,
          List.getLast?_cons, lastFrame?]
      have hknown : (p.takeFrame f).1.previous.isSome ↔ ∃ g, (p.takeFrame f).2 = .ok g := by
        unfold takeFrame
        cases p.carry f <;> simp
      rw [hlast, askAll_cons, ask_frame]
      refine (ih (p.takeFrame f).1).trans ?_
      cases (p.takeFrame f).1.lastFrame? rest with
      | none => simp [hknown]
      | some answer => simp

/-- **Behind another frame one that changes nothing is kept**, and as the first it is not. -/
theorem answer_same (hp : p.Fitting) :
    (p.askAll [.frame .same]).2 = [.frame (.ok .same)] ↔ p.previous.isSome := by
  have hanswer : (p.askAll [.frame .same]).2 = [.frame (p.takeFrame .same).2] := rfl
  rw [hanswer, List.singleton_inj, SlotAnswer.frame.injEq]
  constructor
  · intro h
    by_contra hnone
    rw [Bool.not_eq_true] at hnone
    unfold takeFrame carry at h
    simp only [Frame.locals?, keeps, hnone, Bool.false_and, Bool.false_eq_true, if_false, false_and,
      and_false] at h
    cases hw : insertLocals p.boundary p.inserted p.before with
    | error slot => rw [hw] at h; cases h
    | ok widened => rw [hw] at h; cases h
  · intro hsome
    obtain ⟨locals, hlocals⟩ := Option.isSome_iff_exists.1 hsome
    obtain ⟨widened, hw⟩ := (@insertLocals_isOk_iff _ _ p.boundary p.inserted locals).2
      (hp locals hlocals)
    have hbefore : p.before = locals := by rw [before, hlocals, Option.getD_some]
    simp only [takeFrame, carry, Frame.locals?, hbefore, hw, keeps, hsome, Bool.and_self, if_true]

/-- **Which refused frames can be told.** Let an insertion of a method be asked for slots and for
frames, some of which it may have refused, and let it refuse one more frame. Then it is the
insertion that was asked for the same slots and for no frame. So later slots and limits are what
they would be without the refused frame, and later frames are if and only if the frame before it
was refused, or there was none. -/
theorem refused_iff (m : DeclaredMethod) (policy : RelativeFrames) (asked : List SlotRequest)
    (f : CodeFrame) (fault : Fault)
    (h : (((ofMethod m policy).askAll asked).1.takeFrame f).2 = .error fault) :
    let p := ((ofMethod m policy).askAll asked).1
    let q := (p.takeFrame f).1
    q = ((ofMethod m policy).askAll (asked.filter (!·.isFrame))).1 ∧
      (∀ later, (∀ r ∈ later, r.isFrame = false) → (q.askAll later).2 = (p.askAll later).2) ∧
      ((∀ later, (q.askAll later).2 = (p.askAll later).2) ↔
        ¬ ∃ g, (ofMethod m policy).lastFrame? asked = some (.ok g)) := by
  intro p q
  have hq : q = p.forget := takeFrame_refused h
  have hfitting : p.Fitting :=
    Fitting.askAll (fun locals hnone => by cases hnone) asked
  have hknown : p.previous.isSome ↔ ∃ g, (ofMethod m policy).lastFrame? asked = some (.ok g) := by
    refine (previous_askAll _ asked).trans ?_
    simp [ofMethod]
  rw [hq, ← hknown]
  refine ⟨forget_askAll _ asked, fun later hlater => answers_forget later hlater, ?_⟩
  constructor
  · intro hsame hsome
    have hforget : p.forget.Fitting := fun locals hnone => by cases hnone
    have hkept := (answer_same hfitting).2 hsome
    rw [← hsame, answer_same hforget] at hkept
    cases hkept
  · intro hnone later
    have hsame : p.forget = p := by
      rw [Bool.not_eq_true, Option.isSome_eq_false_iff, Option.isNone_iff_eq_none] at hnone
      rw [forget, ← hnone]
    rw [hsame]

/-- Behind a frame that adds a `float`, one that removes five locals is refused. A frame that
changes nothing is kept before that, and behind it the `float` is not among its locals. -/
theorem refused_iff_chopped :
    let asked : List SlotRequest := [.allocate (.ofBase .int), .frame (.append [.float])]
    let p := ((ofMethod sampleMethod .spellOut).askAll asked).1
    let q := (p.takeFrame (.chop 5)).1
    (p.takeFrame (.chop 5)).2 = .error (.unsupportedFrame (.chopUnderflow 5 2)) ∧
      (p.askAll [.frame .same]).2 = [.frame (.ok .same)] ∧
      (q.askAll [.frame .same]).2 = [.frame (.ok (.full [.integer, .integer] []))] ∧
      ¬ ∀ later, (q.askAll later).2 = (p.askAll later).2 := by
  intro asked p q
  refine ⟨rfl, rfl, rfl, ?_⟩
  have hrefused := refused_iff sampleMethod .spellOut asked (.chop 5) _ rfl
  exact fun hsame => hrefused.2.2.1 hsame ⟨_, rfl⟩

end Insertion

end FreshLocal
