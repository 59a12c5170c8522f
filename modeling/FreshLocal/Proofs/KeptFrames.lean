import FreshLocal.Proofs.RefusedFrames

/-!
# Frames that are kept

A relative frame is kept if the locals before it and those behind it come so far as
the boundary. That is a test of two widths. What it has to decide is whether the
frame, read behind the locals that were sent last, comes to its own locals with the
new variables in them.

**Argument.** The new variables make a list of locals longer by their number, and by
one unusable slot for each that is missing to the boundary (`length_insertLocals`). A
relative frame takes as many entries from the end of one list as from that of the
other, or puts as many there. So if it means the same behind both, as many slots are
missing before it as behind it; and a frame that takes or puts a value changes how
many are missing, unless there are none.

* `Insertion.locals?_iff_keeps`: **the test is exact** behind locals that were sent.
* `Insertion.linked_askAll`: what was sent, read from the start, stays linked.
* `Insertion.carry_spellOut`: a frame that is not refused is answered alike under both
  policies.
* `Insertion.kept_iff`: **which frames are kept** in any history of one method.
-/

namespace FreshLocal

variable {κ π : Type}

/-- Is a new variable wanted? -/
def SlotRequest.isAllocation : SlotRequest → Bool
  | allocate _ => true
  | _ => false

/-- The frame that is to be carried over. -/
def SlotRequest.frame? : SlotRequest → Option CodeFrame
  | frame f => some f
  | _ => none

/-- The frame that was sent as an answer. -/
def SlotAnswer.sent? : SlotAnswer → Option CodeFrame
  | frame (.ok f) => some f
  | _ => none

/-! ## The test -/

/-- **How long a list becomes**: by the new locals, and by the slots that are missing to the
boundary. -/
theorem length_insertLocals {boundary : Nat}
    {inserted locals widened : List (VerificationType κ π)}
    (h : insertLocals boundary inserted locals = .ok widened) :
    widened.length = locals.length + (boundary - slotCount locals) + inserted.length := by
  obtain ⟨before, after, missing, rfl, hcount, hend, rfl⟩ := insertLocals_eq_ok.1 h
  have hmissing : boundary - slotCount (before ++ after) = missing := by
    rw [slotCount_append]
    rcases hend with rfl | rfl
    · omega
    · rw [slotCount_nil]; omega
  rw [hmissing]
  simp only [List.length_append, List.length_replicate]
  omega

/-- Some locals take some slots. -/
theorem length_le_slotCount (locals : List (VerificationType κ π)) :
    locals.length ≤ slotCount locals := by
  induction locals with
  | nil => rfl
  | cons t rest ih =>
    have ht := t.width_pos
    rw [List.length_cons, slotCount_cons]
    omega

namespace Insertion

variable {p q : Insertion} {f g : CodeFrame} {r : SlotRequest} {locals widened sent : List CodeType}

/-- **The test is exact.** Let a frame be relative to locals of the original history, with the
same locals and the new variables sent before it. It comes to its own locals with the new
variables in them, read behind those sent, if and only if the test keeps it. -/
theorem locals?_iff_keeps (hl : p.Linked sent) (hknown : p.previous.isSome)
    (hrelative : f.isFull = false) (hchop : f ≠ .chop 0) (happend : f ≠ .append [])
    (hf : f.locals? p.before = some locals)
    (hw : insertLocals p.boundary p.inserted locals = .ok widened) :
    f.locals? sent = some widened ↔ p.keeps f locals = true := by
  refine ⟨fun hsame => ?_, fun hk => locals?_of_keeps hl hk hf hw⟩
  obtain ⟨before, hbefore⟩ := Option.isSome_iff_exists.1 hknown
  have hp : p.before = before := by rw [Insertion.before, hbefore, Option.getD_some]
  have hsent := length_insertLocals (hl before hbefore)
  have hwidened := length_insertLocals hw
  simp only [keeps, hknown, Bool.true_and]
  rw [hp] at hf ⊢
  cases f with
  | full _ _ => cases hrelative
  | same | sameOne _ => rfl
  | append more =>
    cases hf
    cases hsame
    have hmore := length_le_slotCount more
    have hone : more.length ≠ 0 := fun h => happend (by rw [List.length_eq_zero_iff.1 h])
    simp only [slotCount_append, List.length_append] at hwidened ⊢
    -- the values that come in fill slots that were missing, if any were
    have hreach : p.boundary ≤ slotCount before := by omega
    simp only [Bool.and_eq_true, decide_eq_true_eq]
    exact ⟨hreach, by omega⟩
  | chop count =>
    obtain ⟨removed, rfl, hremoved⟩ := Frame.locals?_chop hf
    obtain ⟨removed', rfl, hremoved'⟩ := Frame.locals?_chop hsame
    have hone : count.toNat ≠ 0 := fun (h : count.toNat = (0 : UInt8).toNat) =>
      hchop (by rw [UInt8.toNat_inj.1 h])
    have htaken := length_le_slotCount removed
    simp only [slotCount_append, List.length_append] at hsent ⊢
    -- the values that go leave slots missing, unless what stays comes to the boundary
    have hreach : p.boundary ≤ slotCount locals := by omega
    simp only [Bool.and_eq_true, decide_eq_true_eq]
    exact ⟨by omega, hreach⟩

/-- What `carry` comes to for a frame that has its locals and leaves room for the new ones. -/
theorem carry_of_room (hf : f.locals? p.before = some locals)
    (hw : insertLocals p.boundary p.inserted locals = .ok widened) :
    p.carry f =
      if p.keeps f locals = true then .ok (f, locals)
      else if p.policy = .refuse ∧ p.previous.isSome ∧ ¬ f.isFull then
        .error .compactFrameAcrossBoundary
      else .ok (.full widened f.stack, locals) := by
  simp only [carry, hf, hw]

/-- **The answer to a relative frame** that has its locals and leaves room for the new ones. -/
theorem answer_relative (hrelative : f.isFull = false) (hf : f.locals? p.before = some locals)
    (hw : insertLocals p.boundary p.inserted locals = .ok widened) :
    (p.takeFrame f).2 =
      if p.keeps f locals = true then .ok f
      else if p.policy = .refuse ∧ p.previous.isSome then
        .error (.unsupportedFrame .compactFrameAcrossBoundary)
      else .ok (.full widened f.stack) := by
  have hcarry := carry_of_room hf hw
  simp only [hrelative, Bool.false_eq_true, not_false_eq_true, and_true] at hcarry
  rw [takeFrame, hcarry]
  split_ifs <;> rfl

/-! ## Histories -/

/-- Only a request for a new variable changes more than the locals of the last frame. -/
theorem ask_eq (hr : r.isAllocation = false) :
    ∃ previous, (p.ask r).1 = { p with previous := previous } := by
  cases r with
  | allocate type => cases hr
  | relocate slot | limit declared => exact ⟨p.previous, rfl⟩
  | frame f =>
    rw [ask_frame, takeFrame]
    cases p.carry f with
    | error cause => exact ⟨none, rfl⟩
    | ok x => exact ⟨some x.2, rfl⟩

theorem askAll_eq (asked : List SlotRequest) (hasked : ∀ r ∈ asked, r.isAllocation = false) :
    ∃ previous, (p.askAll asked).1 = { p with previous := previous } := by
  induction asked generalizing p with
  | nil => exact ⟨p.previous, rfl⟩
  | cons r rest ih =>
    obtain ⟨hr, hrest⟩ := List.forall_mem_cons.1 hasked
    obtain ⟨previous, hfirst⟩ := @ask_eq p r hr
    obtain ⟨previous', hthen⟩ := @ih (p.ask r).1 hrest
    exact ⟨previous', by rw [askAll_cons, hthen, hfirst]⟩

/-- **What was sent, read from linked locals on**, comes to linked locals; a refusal sends nothing
and leaves nothing to be linked to. -/
theorem linked_askAll (asked : List SlotRequest) (hasked : ∀ r ∈ asked, r.isAllocation = false)
    (hl : p.Linked sent) :
    let carried := (p.askAll asked).2.filterMap SlotAnswer.sent?
    ∃ sent', Frame.localsBefore? sent carried carried.length = some sent' ∧
      (p.askAll asked).1.Linked sent' := by
  induction asked generalizing p sent with
  | nil => exact ⟨sent, rfl, hl⟩
  | cons r rest ih =>
    obtain ⟨hr, hrest⟩ := List.forall_mem_cons.1 hasked
    cases r with
    | allocate type => cases hr
    | relocate slot | limit declared => exact ih hrest hl
    | frame f =>
      rw [askAll_cons, ask_frame, takeFrame]
      cases hc : p.carry f with
      | error cause => exact ih hrest fun locals hnone => by cases hnone
      | ok x =>
        obtain ⟨g, locals⟩ := x
        obtain ⟨-, -, widened, hw, hg⟩ := carry_eq_ok hl hc
        have hlinked : ({ p with previous := some locals } : Insertion).Linked widened := by
          rintro _ ⟨⟩
          exact hw
        obtain ⟨sent', hread, hlinked'⟩ := ih hrest hlinked
        refine ⟨sent', ?_, hlinked'⟩
        have hanswer : (SlotAnswer.frame (.ok g)).sent? = some g := rfl
        rw [List.filterMap_cons_some hanswer, List.length_cons, Frame.localsBefore?_succ, hg]
        exact hread

/-- **Where no frame was refused**, the next one is relative to the locals that the frames come to,
read one after the other. -/
theorem before_askAll (asked : List SlotRequest) (hasked : ∀ r ∈ asked, r.isAllocation = false)
    (hnone : ∀ fault, .frame (.error fault) ∉ (p.askAll asked).2) :
    Frame.localsBefore? p.before (asked.filterMap SlotRequest.frame?)
      (asked.filterMap SlotRequest.frame?).length = some (p.askAll asked).1.before := by
  induction asked generalizing p with
  | nil => rfl
  | cons r rest ih =>
    obtain ⟨hr, hrest⟩ := List.forall_mem_cons.1 hasked
    rw [askAll_cons] at hnone ⊢
    have hthen : ∀ fault, .frame (.error fault) ∉ ((p.ask r).1.askAll rest).2 :=
      fun fault hmem => hnone fault (List.mem_cons_of_mem _ hmem)
    cases r with
    | allocate type => cases hr
    | relocate slot | limit declared => exact ih hrest hthen
    | frame f =>
      have hsent : ∀ fault, (p.takeFrame f).2 ≠ .error fault := by
        intro fault he
        refine hnone fault (List.mem_cons.2 (.inl ?_))
        rw [ask_frame, he]
      have hrec := ih hrest hthen
      have hframe : (SlotRequest.frame f).frame? = some f := rfl
      rw [List.filterMap_cons_some hframe, List.length_cons, Frame.localsBefore?_succ]
      rw [ask_frame] at hrec ⊢
      unfold takeFrame at hsent hrec ⊢
      cases hc : p.carry f with
      | error cause => rw [hc] at hsent; exact absurd rfl (hsent _)
      | ok x =>
        rw [hc] at hrec
        rw [(carry_cases hc).1]
        exact hrec

/-! ## The two policies -/

/-- A frame that is carried over is carried over in the same way where frames are spelled out. -/
theorem carry_spellOut {x : CodeFrame × List CodeType} (h : p.carry f = .ok x) :
    ({ p with policy := .spellOut } : Insertion).carry f = .ok x := by
  obtain ⟨g, locals⟩ := x
  obtain ⟨hf, widened, hw, -⟩ := carry_cases h
  have hspelt := @carry_of_room { p with policy := .spellOut } f locals widened hf hw
  have hkeeps :
      ({ p with policy := .spellOut } : Insertion).keeps f locals = p.keeps f locals := rfl
  rw [carry_of_room hf hw] at h
  rw [hkeeps] at hspelt
  rw [hspelt]
  by_cases hk : p.keeps f locals = true
  · rw [if_pos hk] at h ⊢
    exact h
  · rw [if_neg hk] at h ⊢
    rw [if_neg (by simp)]
    split at h
    · cases h
    · exact h

/-- **Frames that are all carried over** are so where frames are spelled out. -/
theorem takeFrames_spellOut (frames carried : List CodeFrame)
    (h : p.takeFrames frames = carried.map .ok) :
    ({ p with policy := .spellOut } : Insertion).takeFrames frames = carried.map .ok := by
  induction frames generalizing p carried with
  | nil => exact h
  | cons f rest ih =>
    obtain _ | ⟨g, carried⟩ := carried
    · simp [takeFrames] at h
    simp only [takeFrames, takeFrame, List.map_cons, List.cons.injEq] at h ⊢
    cases hc : p.carry f with
    | error cause => rw [hc] at h; cases h.1
    | ok x =>
      rw [hc] at h
      rw [carry_spellOut hc]
      exact ⟨h.1, ih carried h.2⟩

/-- New slots do not depend on the policy. -/
theorem allocateAll_policy (types : List FieldType) (policy : RelativeFrames) :
    (({ p with policy } : Insertion).allocateAll types).1 =
      { (p.allocateAll types).1 with policy } := by
  induction types generalizing p with
  | nil => rfl
  | cons t rest ih =>
    simp only [allocateAll, allocate]
    cases p.range.extend t.width with
    | error fault => exact ih
    | ok x => exact @ih { p with range := x.2, inserted := p.inserted ++ [t.localType] }

/-! ## The frames that are kept -/

/-- **Which frames are kept.** Let new variables be asked for in a method and then frames be
carried over, some of which may be refused, with slots and limits in between. Let `sent` be the
locals that the frames sent so far come to, read from the start, and let a frame follow that is
relative to the one before it; if it takes locals or puts some, it is one at least. It is kept as
it is if and only if the last frame was not refused and the frame means the same behind `sent`,
with the new variables in its locals. If it does not mean the same, it is refused or spelled out,
as the policy says; and behind a refusal it is spelled out. Where no frame was refused, it is
relative to the locals of the original frames. What is carried over under the policy to refuse is
carried over under the other in the same way. -/
theorem kept_iff (m : DeclaredMethod) (policy : RelativeFrames) (types : List FieldType)
    (granted : List (Except Fault UInt16)) (p : Insertion)
    (hp : (ofMethod m policy).allocateAll types = (p, granted))
    (asked : List SlotRequest) (hasked : ∀ r ∈ asked, r.isAllocation = false)
    (answers : List SlotAnswer) (q : Insertion) (hq : p.askAll asked = (q, answers))
    (f : CodeFrame) (hrelative : f.isFull = false) (hchop : f ≠ .chop 0) (happend : f ≠ .append [])
    (locals widened : List CodeType) (hlocals : f.locals? q.before = some locals)
    (hwidened : insertLocals m.first p.inserted locals = .ok widened) :
    let frames := asked.filterMap SlotRequest.frame?
    let carried := answers.filterMap SlotAnswer.sent?
    let LastCarried := ∃ g, p.lastFrame? asked = some (.ok g)
    (∃ sent, Frame.localsBefore? m.implicit carried carried.length = some sent ∧
      ((q.takeFrame f).2 = .ok f ↔ LastCarried ∧ f.locals? sent = some widened) ∧
      ((q.takeFrame f).2 = .error (.unsupportedFrame .compactFrameAcrossBoundary) ↔
        LastCarried ∧ f.locals? sent ≠ some widened ∧ policy = .refuse) ∧
      ((q.takeFrame f).2 = .ok (.full widened f.stack) ↔
        LastCarried → f.locals? sent ≠ some widened ∧ policy = .spellOut)) ∧
    ((∀ fault, .frame (.error fault) ∉ answers) →
      Frame.localsBefore? m.implicit frames frames.length = some q.before) ∧
    ∀ frames carried : List CodeFrame,
      ((ofMethod m .refuse).allocateAll types).1.takeFrames frames = carried.map .ok →
      ((ofMethod m .spellOut).allocateAll types).1.takeFrames frames = carried.map .ok := by
  intro frames carried LastCarried
  obtain ⟨more, hstart, -⟩ := allocateAll_spec types (ofMethod m policy)
  simp only [hp] at hstart
  -- before the first frame any locals are linked, and those of the method in particular
  have hfresh : p.previous = none := by rw [hstart]; rfl
  have hlinked : p.Linked m.implicit := fun _ hsome => by rw [hfresh] at hsome; cases hsome
  obtain ⟨sent, hread, hsent⟩ := linked_askAll asked hasked hlinked
  obtain ⟨previous, hsame⟩ := @askAll_eq p asked hasked
  have hknown : q.previous.isSome ↔ LastCarried := by
    have hlast := previous_askAll p asked
    simp only [hfresh, Option.isSome_none, Bool.false_eq_true, and_false, or_false] at hlast
    rw [hq] at hlast
    exact hlast
  have hbefore := @before_askAll p asked hasked
  rw [hq] at hread hsent hsame hbefore
  obtain rfl : q = { p with previous := previous } := hsame
  have hpolicy : p.policy = policy := by rw [hstart]; rfl
  have hboundary : p.boundary = m.first := by rw [hstart]; rfl
  have himplicit : p.before = m.implicit := by rw [hstart]; rfl
  rw [← hboundary] at hwidened
  refine ⟨⟨sent, hread, ?_⟩, fun hnone => himplicit ▸ hbefore hnone, fun frames carried h => ?_⟩
  · have hfull : f ≠ .full widened f.stack := fun he => by rw [he] at hrelative; cases hrelative
    have hanswer := answer_relative hrelative hlocals hwidened
    by_cases hcarried : LastCarried
    · have hexact := locals?_iff_keeps hsent (hknown.2 hcarried) hrelative hchop happend
        hlocals hwidened
      by_cases hkeep : ({ p with previous := previous } : Insertion).keeps f locals = true
      · rw [hanswer, if_pos hkeep]
        simp [hcarried, hexact.2 hkeep, hfull]
      · have hchanged := mt hexact.1 hkeep
        rw [if_neg hkeep] at hanswer
        cases policy with
        | refuse =>
          rw [hanswer, if_pos ⟨hpolicy, hknown.2 hcarried⟩]
          simp [hcarried, hchanged]
        | spellOut =>
          have hspell : ¬ p.policy = .refuse := by rw [hpolicy]; simp
          rw [hanswer, if_neg (fun hr => hspell hr.1)]
          simp [hcarried, hchanged, hfull.symm]
    · -- the last frame was refused, or there was none, so that this one counts as the first
      have hfirst : ¬ previous.isSome = true := mt hknown.1 hcarried
      have hkeep : ¬ ({ p with previous := previous } : Insertion).keeps f locals = true := by
        simp [keeps, hfirst]
      rw [hanswer, if_neg hkeep, if_neg (fun hr => hfirst hr.2)]
      simp [hcarried, hfull.symm]
  · have hrefuse := takeFrames_spellOut frames carried h
    rw [← allocateAll_policy] at hrefuse
    exact hrefuse

/-- A frame that changes nothing is kept behind another one, and spelled out behind one that
removes five locals where there is one and is refused. It means the same behind both. -/
theorem kept_iff_refused :
    let p := ((ofMethod sampleMethod .refuse).allocateAll [.ofBase .int]).1
    let answered := p.askAll [.frame .same]
    let refused := p.askAll [.frame .same, .frame (.chop 5)]
    answered.2 = [.frame (.ok (.full [.integer, .integer] []))] ∧
      refused.2 = answered.2 ++ [.frame (.error (.unsupportedFrame (.chopUnderflow 5 1)))] ∧
      (answered.1.takeFrame .same).2 = .ok .same ∧
      (refused.1.takeFrame .same).2 = .ok (.full [.integer, .integer] []) := by
  intro p answered refused
  obtain ⟨⟨sent, hsent, hkept, -⟩, -⟩ := kept_iff sampleMethod .refuse [.ofBase .int] _ p rfl
    [.frame .same] (by decide) _ answered.1 rfl .same rfl (by decide) (by decide) [.integer]
    [.integer, .integer] rfl rfl
  obtain ⟨⟨sent', hsent', -, -, hspelt⟩, -⟩ := kept_iff sampleMethod .refuse [.ofBase .int] _ p rfl
    [.frame .same, .frame (.chop 5)] (by decide) _ refused.1 rfl .same rfl (by decide) (by decide)
    [.integer] [.integer, .integer] rfl rfl
  have hlast : p.lastFrame? [.frame .same, .frame (.chop 5)] =
    some (.error (.unsupportedFrame (.chopUnderflow 5 1))) := rfl
  refine ⟨rfl, rfl, hkept.2 ⟨⟨_, rfl⟩, hsent.symm⟩, hspelt.2 ?_⟩
  rintro ⟨g, hg⟩
  rw [hlast] at hg
  cases hg

end Insertion

end FreshLocal
