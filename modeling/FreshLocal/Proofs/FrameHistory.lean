import FreshLocal.Proofs.Allocation

/-!
# Frames that follow each other

Relative frames mean something only behind the frame before, so the frames that
are carried over have to be read as a history of their own. `Insertion` keeps
the locals of the original history only; a frame that is kept as it is relates
to the locals of the frame that was sent last.

**The invariant**: the locals of the frame sent last are those of the original
history with the new variables in them (`Linked`).

* `carry_eq_ok`: one frame, carried over from linked locals to linked locals.
* `takeFrames_run`: **the history of the frames carried over is the original
  one with the new variables in every list of locals**, and where frames are
  spelled out, the first refusal is at the first frame that cannot be meant.
-/

namespace FreshLocal

namespace Frame

variable {κ π : Type} {before more locals : List (VerificationType κ π)} {f : Frame κ π}

/-- A frame has locals unless it removes more of them than there are. -/
theorem locals?_eq_none : f.locals? before = none ↔
    ∃ count, f = .chop count ∧ before.length < count.toNat := by
  cases f with
  | chop count => simp [locals?]
  | _ => simp [locals?]

/-- The locals that a frame removes are the last ones. -/
theorem locals?_chop {count : UInt8} (h : (chop count).locals? before = some locals) :
    ∃ removed, before = locals ++ removed ∧ removed.length = count.toNat := by
  simp only [locals?] at h
  split at h
  · rename_i hle
    cases h
    refine ⟨before.drop (before.length - count.toNat), (List.take_append_drop _ _).symm, ?_⟩
    rw [List.length_drop]
    omega
  · cases h

theorem locals?_chop_append {count : UInt8} {removed : List (VerificationType κ π)}
    (h : removed.length = count.toNat) :
    (chop count).locals? (locals ++ removed) = some locals := by
  simp only [locals?, List.length_append, h]
  rw [if_pos (by omega), Nat.add_sub_cancel, List.take_left]

/-- The locals before the frame at a place of a history, which starts with `before`. -/
def localsBefore? (before : List (VerificationType κ π)) (frames : List (Frame κ π)) (i : Nat) :
    Option (List (VerificationType κ π)) :=
  (run? before (frames.take i)).map fun history => history.getLastD before

/-- A frame **cannot be meant** behind some locals: it removes more of them than there are, or
leaves a value that reaches over the boundary. -/
def Unfit (boundary : Nat) (before : List (VerificationType κ π)) (f : Frame κ π) : Prop :=
  (∃ count, f = .chop count ∧ before.length < count.toNat) ∨
    ∃ locals, f.locals? before = some locals ∧ Straddles boundary locals

/-- The frame at the place `i` is the first of a history that cannot be meant. -/
def FirstUnfit (boundary : Nat) (before : List (VerificationType κ π)) (frames : List (Frame κ π))
    (i : Nat) : Prop :=
  (∃ f locals, frames[i]? = some f ∧ localsBefore? before frames i = some locals ∧
    f.Unfit boundary locals) ∧
  ∀ j < i, ∃ f locals, frames[j]? = some f ∧ localsBefore? before frames j = some locals ∧
    ¬ f.Unfit boundary locals

theorem localsBefore?_zero (frames : List (Frame κ π)) :
    localsBefore? before frames 0 = some before := rfl

theorem localsBefore?_succ (f : Frame κ π) (rest : List (Frame κ π)) (i : Nat) :
    localsBefore? before (f :: rest) (i + 1) =
      (f.locals? before).bind fun locals => localsBefore? locals rest i := by
  unfold localsBefore?
  rw [List.take_succ_cons, run?]
  cases f.locals? before with
  | none => rfl
  | some locals =>
    simp only [Option.bind_some]
    cases run? locals (rest.take i) with
    | none => rfl
    | some history => cases history <;> rfl

theorem firstUnfit_zero {boundary : Nat} {rest : List (Frame κ π)} :
    FirstUnfit boundary before (f :: rest) 0 ↔ f.Unfit boundary before := by
  simp [FirstUnfit, localsBefore?_zero]

theorem firstUnfit_succ {boundary i : Nat} {rest : List (Frame κ π)} :
    FirstUnfit boundary before (f :: rest) (i + 1) ↔ ¬ f.Unfit boundary before ∧
      ∃ locals, f.locals? before = some locals ∧ FirstUnfit boundary locals rest i := by
  constructor
  · rintro ⟨⟨g, later, hg, hlater, hu⟩, hpast⟩
    rw [localsBefore?_succ, Option.bind_eq_some_iff] at hlater
    obtain ⟨locals, hf, hlater⟩ := hlater
    have hfirst : ¬ f.Unfit boundary before := by
      obtain ⟨f', locals', hf', hl', hn⟩ := hpast 0 (by omega)
      simp only [List.getElem?_cons_zero, Option.some.injEq, localsBefore?_zero] at hf' hl'
      subst hf' hl'
      exact hn
    refine ⟨hfirst, locals, hf, ⟨g, later, hg, hlater, hu⟩, ?_⟩
    intro j hj
    obtain ⟨g', later', hg', hlater', hn⟩ := hpast (j + 1) (by omega)
    rw [localsBefore?_succ, hf] at hlater'
    exact ⟨g', later', hg', hlater', hn⟩
  · rintro ⟨hfirst, locals, hf, ⟨g, later, hg, hlater, hu⟩, hpast⟩
    refine ⟨⟨g, later, hg, by rw [localsBefore?_succ, hf]; exact hlater, hu⟩, ?_⟩
    intro j hj
    cases j with
    | zero => exact ⟨f, before, rfl, rfl, hfirst⟩
    | succ j =>
      obtain ⟨g', later', hg', hlater', hn⟩ := hpast j (by omega)
      exact ⟨g', later', hg', by rw [localsBefore?_succ, hf]; exact hlater', hn⟩

end Frame

namespace Insertion

variable {p q : Insertion} {f g : CodeFrame} {locals : List CodeType}

/-- Carry frames over one after the other, and go on when one is refused. -/
def takeFrames (p : Insertion) : List CodeFrame → List (Except Fault CodeFrame)
  | [] => []
  | f :: rest => (p.takeFrame f).2 :: (p.takeFrame f).1.takeFrames rest

/-- The answer at the place `i` is the first refusal. -/
def FirstRefused (answers : List (Except Fault CodeFrame)) (i : Nat) : Prop :=
  (∃ fault, answers[i]? = some (.error fault)) ∧ ∀ j < i, ∃ f, answers[j]? = some (.ok f)

/-- **The invariant of a history.** The locals of the frame that was sent last are those of the
original history with the new variables in them; before the first frame, they may be any. -/
def Linked (p : Insertion) (sent : List CodeType) : Prop :=
  ∀ locals, p.previous = some locals → insertLocals p.boundary p.inserted locals = .ok sent

/-- **A frame that is kept** means behind the locals sent last what it means behind the original
ones, with the new variables in it. -/
theorem locals?_of_keeps {sent widened : List CodeType} (hl : p.Linked sent)
    (hk : p.keeps f locals = true) (hf : f.locals? p.before = some locals)
    (hw : insertLocals p.boundary p.inserted locals = .ok widened) :
    f.locals? sent = some widened := by
  simp only [keeps, Bool.and_eq_true] at hk
  obtain ⟨hsome, hk⟩ := hk
  obtain ⟨before, hprev⟩ := Option.isSome_iff_exists.1 hsome
  have hbefore : p.before = before := by simp [Insertion.before, hprev]
  have hs := hl before hprev
  rw [hbefore] at hf hk
  cases f with
  | same | sameOne _ =>
    cases hf
    rw [hs] at hw
    cases hw
    rfl
  | append more =>
    cases hf
    simp only [Bool.and_eq_true, decide_eq_true_eq] at hk
    rw [insertLocals_append hk.1 hs more] at hw
    cases hw
    rfl
  | chop count =>
    simp only [Bool.and_eq_true, decide_eq_true_eq] at hk
    obtain ⟨removed, rfl, hlen⟩ := Frame.locals?_chop hf
    rw [insertLocals_append hk.2 hw removed] at hs
    cases hs
    exact Frame.locals?_chop_append hlen
  | full _ _ => cases hk

/-- What `carry` does: it works out the locals, puts the new variables in, and then keeps the
frame or spells it out. -/
theorem carry_cases (h : p.carry f = .ok (g, locals)) :
    f.locals? p.before = some locals ∧ ∃ widened,
      insertLocals p.boundary p.inserted locals = .ok widened ∧
      ((p.keeps f locals = true ∧ g = f) ∨ g = .full widened f.stack) := by
  unfold carry at h
  split at h
  · cases h
  · rename_i locals' hf
    split at h
    · cases h
    · rename_i widened hw
      split at h
      · rename_i hk
        cases h
        exact ⟨hf, widened, hw, .inl ⟨hk, rfl⟩⟩
      · split at h
        · cases h
        · cases h
          exact ⟨hf, widened, hw, .inr rfl⟩

/-- **One frame carried over.** -/
theorem carry_eq_ok {sent : List CodeType} (hl : p.Linked sent) (h : p.carry f = .ok (g, locals)) :
    f.locals? p.before = some locals ∧ g.stack = f.stack ∧ ∃ widened,
      insertLocals p.boundary p.inserted locals = .ok widened ∧ g.locals? sent = some widened := by
  obtain ⟨hf, widened, hw, ⟨hk, rfl⟩ | rfl⟩ := carry_cases h
  · exact ⟨hf, rfl, widened, hw, locals?_of_keeps hl hk hf hw⟩
  · exact ⟨hf, rfl, widened, hw, rfl⟩

/-- Where frames are spelled out, a frame is refused only if it cannot be meant. -/
theorem carry_isOk_iff (hp : p.policy = .spellOut) :
    (∃ r, p.carry f = .ok r) ↔ ¬ f.Unfit p.boundary p.before := by
  have hc : ¬ (p.policy = .refuse ∧ p.previous.isSome = true ∧ ¬ f.isFull = true) := by
    rw [hp]; simp
  unfold carry Frame.Unfit
  cases hf : f.locals? p.before with
  | none => simp [Frame.locals?_eq_none.1 hf]
  | some locals =>
    have hn : ¬ ∃ count, f = .chop count ∧ p.before.length < count.toNat := by
      intro h
      rw [← Frame.locals?_eq_none, hf] at h
      cases h
    simp only [hn, Option.some.injEq, false_or, exists_eq_left']
    rw [← @insertLocals_isOk_iff _ _ p.boundary p.inserted locals]
    cases hw : insertLocals p.boundary p.inserted locals with
    | error slot => simp
    | ok widened =>
      simp only [Except.ok.injEq, exists_eq', iff_true]
      by_cases hk : p.keeps f locals = true
      · exact ⟨_, if_pos hk⟩
      · exact ⟨_, by rw [if_neg hk, if_neg hc]⟩

theorem firstRefused_zero {a : Except Fault CodeFrame} {rest : List (Except Fault CodeFrame)} :
    FirstRefused (a :: rest) 0 ↔ ∃ fault, a = .error fault := by
  simp [FirstRefused]

theorem firstRefused_succ {a : Except Fault CodeFrame} {rest : List (Except Fault CodeFrame)}
    {i : Nat} : FirstRefused (a :: rest) (i + 1) ↔ (∃ f, a = .ok f) ∧ FirstRefused rest i := by
  constructor
  · rintro ⟨⟨fault, hi⟩, hpast⟩
    obtain ⟨f, hf⟩ := hpast 0 (by omega)
    refine ⟨⟨f, by simpa using hf⟩, ⟨fault, by simpa using hi⟩, fun j hj => ?_⟩
    simpa using hpast (j + 1) (by omega)
  · rintro ⟨⟨f, rfl⟩, ⟨fault, hi⟩, hpast⟩
    refine ⟨⟨fault, by simpa using hi⟩, fun j hj => ?_⟩
    cases j with
    | zero => exact ⟨f, rfl⟩
    | succ j => simpa using hpast j (by omega)

/-- **A run of frames that are all carried over**, from linked locals on. -/
theorem takeFrames_eq_ok (frames carried : List CodeFrame) :
    ∀ (p : Insertion) (sent : List CodeType), p.Linked sent →
      p.takeFrames frames = carried.map .ok →
      ∃ history widened, Frame.run? p.before frames = some history ∧
        Frame.run? sent carried = some widened ∧
        List.Forall₂ (fun l w => insertLocals p.boundary p.inserted l = .ok w) history widened ∧
        carried.map Frame.stack = frames.map Frame.stack := by
  induction frames generalizing carried with
  | nil =>
    intro p sent _ h
    obtain rfl : carried = [] := by simpa [takeFrames, eq_comm] using h
    exact ⟨[], [], rfl, rfl, .nil, rfl⟩
  | cons f rest ih =>
    intro p sent hl h
    obtain _ | ⟨g, carried⟩ := carried
    · simp [takeFrames] at h
    simp only [takeFrames, List.map_cons, List.cons.injEq] at h
    obtain ⟨hfirst, hrest⟩ := h
    cases hc : p.carry f with
    | error cause => simp [takeFrame, hc] at hfirst
    | ok r =>
      obtain ⟨g', locals⟩ := r
      simp only [takeFrame, hc, Except.ok.injEq] at hfirst hrest
      subst hfirst
      obtain ⟨hf, hstack, widened, hw, hg⟩ := carry_eq_ok hl hc
      -- the locals sent now are linked to the new original ones
      have hlinked : ({ p with previous := some locals } : Insertion).Linked widened := by
        intro locals' he
        cases he
        exact hw
      obtain ⟨history, widened', h1, h2, h3, h4⟩ := ih carried _ widened hlinked hrest
      have h1' : Frame.run? locals rest = some history := h1
      exact ⟨locals :: history, widened :: widened', by simp [Frame.run?, hf, h1'],
        by simp [Frame.run?, hg, h2], .cons hw h3, by simp [hstack, h4]⟩

/-- **The first refusal**, where frames are spelled out. -/
theorem firstRefused_takeFrames (frames : List CodeFrame) :
    ∀ (p : Insertion), p.policy = .spellOut → ∀ i,
      FirstRefused (p.takeFrames frames) i ↔ Frame.FirstUnfit p.boundary p.before frames i := by
  induction frames with
  | nil => intro p _ i; simp [takeFrames, FirstRefused, Frame.FirstUnfit]
  | cons f rest ih =>
    intro p hp i
    have hok := carry_isOk_iff (f := f) hp
    cases hc : p.carry f with
    | error cause =>
      have hu : f.Unfit p.boundary p.before := by
        by_contra hn
        obtain ⟨r, hr⟩ := hok.2 hn
        rw [hc] at hr
        cases hr
      cases i with
      | zero => simp [takeFrames, takeFrame, hc, firstRefused_zero, Frame.firstUnfit_zero, hu]
      | succ i => simp [takeFrames, takeFrame, hc, firstRefused_succ, Frame.firstUnfit_succ, hu]
    | ok r =>
      obtain ⟨g, locals⟩ := r
      have hn : ¬ f.Unfit p.boundary p.before := hok.1 ⟨_, hc⟩
      have hf : f.locals? p.before = some locals := (carry_cases hc).1
      cases i with
      | zero => simp [takeFrames, takeFrame, hc, firstRefused_zero, Frame.firstUnfit_zero, hn]
      | succ i =>
        simp only [takeFrames, takeFrame, hc, firstRefused_succ, Except.ok.injEq, exists_eq',
          true_and, Frame.firstUnfit_succ, hn, not_false_eq_true, hf, Option.some.injEq,
          exists_eq_left']
        exact ih { p with previous := some locals } hp i

/-- **The history of the frames carried over.** After any requests for new variables in a method,
let some frames follow each other. If all are carried over, then reading them one after the
other gives at each of them the locals of the original frame with the new variables at the first
slot behind the arguments, and the original stack. And where frames are spelled out, the first
refusal is at the first frame that removes more locals than there are or leaves a two-slot value
that reaches over that slot. -/
theorem takeFrames_run (m : DeclaredMethod) (policy : RelativeFrames) (types : List FieldType)
    (frames : List CodeFrame) :
    let p := ((ofMethod m policy).allocateAll types).1
    (∀ carried, p.takeFrames frames = carried.map .ok →
      ∃ history widened, Frame.run? m.implicit frames = some history ∧
        Frame.run? m.implicit carried = some widened ∧
        List.Forall₂ (fun l w => insertLocals m.first p.inserted l = .ok w) history widened ∧
        carried.map Frame.stack = frames.map Frame.stack) ∧
    (policy = .spellOut → ∀ i,
      FirstRefused (p.takeFrames frames) i ↔ Frame.FirstUnfit m.first m.implicit frames i) := by
  obtain ⟨more, h, -⟩ := allocateAll_spec types (ofMethod m policy)
  rw [h]
  refine ⟨fun carried hc => ?_, fun hp i => ?_⟩
  · exact takeFrames_eq_ok frames carried _ m.implicit (fun _ he => by cases he) hc
  · exact firstRefused_takeFrames frames _ hp i

/-- Of three frames of a method with one argument, the second takes the argument away and has to
be spelled out; the third puts a value there that reaches over the boundary. -/
theorem takeFrames_run_crossing :
    let p := ((ofMethod sampleMethod .spellOut).allocateAll [.ofBase .int]).1
    let frames : List CodeFrame := [.append [.float], .chop 2]
    let carried : List CodeFrame := [.full [.integer, .integer, .float] [],
      .full [.top, .integer] []]
    p.takeFrames frames = carried.map .ok ∧
      (∃ history widened, Frame.run? sampleMethod.implicit frames = some history ∧
        Frame.run? sampleMethod.implicit carried = some widened ∧
        List.Forall₂ (fun l w => insertLocals sampleMethod.first p.inserted l = .ok w)
          history widened ∧
        carried.map Frame.stack = frames.map Frame.stack) ∧
      FirstRefused (p.takeFrames (frames ++ [.append [.long]])) 2 ∧
      Frame.FirstUnfit sampleMethod.first sampleMethod.implicit
        (frames ++ [.append [.long]]) 2 := by
  intro p frames carried
  have hrefused : FirstRefused (p.takeFrames (frames ++ [.append [.long]])) 2 := by
    refine ⟨⟨_, rfl⟩, fun j hj => ?_⟩
    interval_cases j
    · exact ⟨_, rfl⟩
    · exact ⟨_, rfl⟩
  refine ⟨rfl, (takeFrames_run sampleMethod .spellOut [.ofBase .int] _).1 _ rfl, hrefused, ?_⟩
  exact ((takeFrames_run sampleMethod .spellOut [.ofBase .int] _).2 rfl 2).1 hrefused

end Insertion

end FreshLocal
