import FreshLocal.Proofs.DraftRequests
import FreshLocal.Proofs.Fidelity

/-!
# Events that the builder refuses

A sink may refuse an event and go on. The builder checks an event before it
changes anything, and so an event that it refuses leaves it as it was. The end of
a method is the exception. It takes the method away and then stores it; when the
storing fails, the method is gone, and the constants that were added for it stay.
The class can still be ended, and it comes without the method.

**Argument.** Every case of `receive` but one refuses with the builder that it
got. In the last case a method is open; behind any events this means that the
class has started and has not ended, so its end is refused before and taken after.

* `ClassBuilder.Reachable`: the builder behind some events, of which it may have refused some.
* `ClassBuilder.answers`: all that can be seen of the builder later.
* `ClassBuilder.receive_refused`: what a refused event changes.
* `ClassBuilder.Reachable.refused`: **which refused events can be told** from events that never
  came.
-/

namespace FreshLocal

namespace ClassBuilder

/-- **The builder behind some events**, of which it may have refused some. -/
inductive Reachable : ClassBuilder → Prop
  | empty : Reachable empty
  | receive {b : ClassBuilder} (e : ClassEvent) : Reachable b → Reachable (receive b e).1

/-- What the builder answers to some events in a row, and the class that it has in the end. It goes
on behind an event that it refuses. -/
def answers : ClassBuilder → List ClassEvent → List (Option Fault) × Except Fault Bytes
  | b, [] => ([], b.finish)
  | b, e :: rest =>
    let (b, answer) := receive b e
    let (answers, bytes) := b.answers rest
    (answer :: answers, bytes)

variable {b b' : ClassBuilder} {e : ClassEvent} {fault : Fault}

/-- While a method is open the class has started and has not ended. -/
def ClassOpen (b : ClassBuilder) : Prop :=
  b.method.isSome → ∃ file, b.file = some file ∧ b.finished = false

/-- The storing of a method puts constants behind those that are there, also if it fails. -/
theorem grows_of_complete_error {m : Method} {body : Option Draft} {p q : ConstantPool}
    (h : (complete m body).run p = .error fault q) : p.Grows q := by
  have hrequest : ∀ r : PoolRequest, PoolM.Safe p.Grows (fun _ => True) r.index :=
    fun r => r.safe_index (fun _ => trivial) (ConstantPool.addKeeps_grows p _)
      fun n => ConstantPool.addKeeps_grows p _
  have hsafe : PoolM.Safe p.Grows (fun _ => True) (complete m body) :=
    safe_complete (fun _ _ => trivial) fun d _ =>
      ⟨hrequest (.text CodeAttribute.name), fun r _ => hrequest r⟩
  exact (hsafe.error p fault q (.refl p) h).1

/-- **What a refused event changes**: nothing, unless it ends a method. Then the method is gone, and
the pool may have grown. -/
theorem receive_refused (hopen : b.ClassOpen) (h : receive b e = (b', some fault)) :
    b' = b ∨ e = .methodEnd ∧ b.method.isSome ∧ ∃ file pool, b.file = some file ∧
      b.finished = false ∧ file.pool.Grows pool ∧ b' = ⟨some { file with pool }, none, false⟩ := by
  have refused : ∀ {cause : EventFault}, b.refuse cause = (b', some fault) → b' = b := by
    intro cause hrefuse
    exact (Prod.mk.inj hrefuse).1.symm
  cases e with
  | classStart c =>
    simp only [receive] at h
    split at h
    · exact .inl (refused h)
    · cases h
  | field f | «attribute» f =>
    simp only [receive, onFile] at h
    split at h
    · cases h
    · exact .inl (refused h)
  | methodStart d =>
    simp only [receive, openMethod] at h
    split at h
    · cases h
    · exact .inl (refused h)
    · exact .inl (refused h)
  | body e =>
    cases e with
    | start maxStack maxLocals =>
      simp only [receive, openBody] at h
      split at h
      · cases h
      · exact .inl (refused h)
    | _ =>
      simp only [receive, receiveBody] at h
      split at h
      · cases h
      · exact .inl (refused h)
  | methodEnd =>
    obtain ⟨file?, method?, finished⟩ := b
    cases method? with
    | none =>
      refine .inl ?_
      cases file? <;> cases finished <;> exact (Prod.mk.inj h).1.symm
    | some x =>
      obtain ⟨file, hfile, hfinished⟩ := hopen rfl
      obtain rfl : file? = some file := hfile
      obtain rfl : finished = false := hfinished
      simp only [receive, closeMethod] at h
      split at h
      · cases h
      · rename_i cause pool hrun
        cases h
        exact .inr ⟨rfl, rfl, file, pool, rfl, rfl, grows_of_complete_error hrun, rfl⟩
  | classEnd =>
    simp only [receive, close] at h
    split at h
    · cases h
    · exact .inl (refused h)
    · exact .inl (refused h)

/-- One event, taken or refused, keeps the class open around a method. -/
theorem ClassOpen.receive (h : b.ClassOpen) (e : ClassEvent) : (receive b e).1.ClassOpen := by
  rcases hreceive : ClassBuilder.receive b e with ⟨b', _ | fault⟩
  · intro hmethod
    cases e with
    | classStart c =>
      simp only [ClassBuilder.receive] at hreceive
      split at hreceive
      · cases hreceive
      · rename_i hnone
        cases hreceive
        obtain ⟨file, hfile, -⟩ := h hmethod
        rw [hfile] at hnone
        exact absurd rfl hnone
    | field f | «attribute» f =>
      simp only [ClassBuilder.receive, onFile] at hreceive
      split at hreceive
      · cases hreceive
        exact ⟨_, rfl, rfl⟩
      · cases hreceive
    | methodStart d =>
      simp only [ClassBuilder.receive, openMethod] at hreceive
      split at hreceive
      · cases hreceive
        exact ⟨_, rfl, rfl⟩
      · cases hreceive
      · cases hreceive
    | body e =>
      cases e with
      | start maxStack maxLocals =>
        simp only [ClassBuilder.receive, openBody] at hreceive
        split at hreceive
        · cases hreceive
          exact h rfl
        · cases hreceive
      | _ =>
        simp only [ClassBuilder.receive, receiveBody] at hreceive
        split at hreceive
        · cases hreceive
          exact h rfl
        · cases hreceive
    | methodEnd =>
      simp only [ClassBuilder.receive, closeMethod] at hreceive
      split at hreceive
      · split at hreceive
        · cases hreceive
          cases hmethod
        · cases hreceive
      · cases hreceive
      · cases hreceive
    | classEnd =>
      simp only [ClassBuilder.receive, close] at hreceive
      split at hreceive
      · cases hreceive
        cases hmethod
      · cases hreceive
      · cases hreceive
  · obtain rfl | ⟨-, -, file, pool, -, -, -, rfl⟩ := receive_refused h hreceive
    · exact h
    · intro hmethod
      cases hmethod

theorem Reachable.classOpen (h : Reachable b) : b.ClassOpen := by
  induction h with
  | empty =>
    intro hmethod
    cases hmethod
  | receive e _ ih => exact ih.receive e

/-- **Which refused events can be told.** Let the builder, behind any events, refuse one more. What
it answers later, and the class that it has in the end, are the same as without this event, whatever
comes later, unless the event ends a method that is open. In that case the method cannot be stored.
It is gone then, and nothing else is changed but the pool, which may have grown. The class may end
at once, though it could not without the event, and its bytes have no trace of the method. -/
theorem Reachable.refused (h : Reachable b)
    (hrefused : ClassBuilder.receive b e = (b', some fault)) :
    ((∀ rest, b'.answers rest = b.answers rest) ↔ ¬ (e = .methodEnd ∧ b.method.isSome)) ∧
      (e = .methodEnd ∧ b.method.isSome → ∃ file pool, b.file = some file ∧
        file.pool.Grows pool ∧ b' = ⟨some { file with pool }, none, false⟩ ∧
        b'.answers [.classEnd] = ([none], .ok (ClassFile.write { file with pool })) ∧
        b.answers [.classEnd] = ([some (.unexpectedEvent .endInsideMethod)],
          .error (.unexpectedEvent .classUnfinished))) := by
  have hcases := receive_refused h.classOpen hrefused
  -- behind the end of a method, the end of the class tells whether the method is still open
  have hend : e = .methodEnd ∧ b.method.isSome → ∃ file pool, b.file = some file ∧
      file.pool.Grows pool ∧ b' = ⟨some { file with pool }, none, false⟩ ∧
      b'.answers [.classEnd] = ([none], .ok (ClassFile.write { file with pool })) ∧
      b.answers [.classEnd] = ([some (.unexpectedEvent .endInsideMethod)],
        .error (.unexpectedEvent .classUnfinished)) := by
    rintro ⟨rfl, hmethod⟩
    obtain ⟨file, hfile, hfinished⟩ := h.classOpen hmethod
    obtain ⟨file?, method?, finished⟩ := b
    obtain rfl : file? = some file := hfile
    obtain rfl : finished = false := hfinished
    obtain ⟨x, rfl⟩ := Option.isSome_iff_exists.1 hmethod
    obtain rfl | ⟨-, -, file', pool, hfile', -, hgrows, rfl⟩ := hcases
    · -- the end of a method does not leave one open
      have hclosed : (ClassBuilder.receive ⟨some file, some x, false⟩ .methodEnd).1.method =
          none := by
        simp only [ClassBuilder.receive, closeMethod]
        split <;> rfl
      rw [hrefused] at hclosed
      cases hclosed
    · obtain rfl := Option.some.inj hfile'
      exact ⟨file, pool, rfl, hgrows, rfl, rfl, rfl⟩
  refine ⟨⟨fun hsame hmethod => ?_, fun hnot rest => ?_⟩, hend⟩
  · obtain ⟨file, pool, -, -, -, hafter, hbefore⟩ := hend hmethod
    have heq := hsame [.classEnd]
    rw [hafter, hbefore] at heq
    cases heq
  · obtain rfl | ⟨he, hmethod, -⟩ := hcases
    · rfl
    · exact absurd ⟨he, hmethod⟩ hnot

theorem reachable_foldl (events : List ClassEvent) (h : Reachable b) :
    Reachable (events.foldl (fun b e => (ClassBuilder.receive b e).1) b) := by
  induction events generalizing b with
  | nil => exact h
  | cons e events ih => exact ih (h.receive e)

/-- A body in which two frames stand before one operation. -/
def conflictingDraft : Draft :=
  { Draft.empty 0 1 with
    items := #[.frame (.append [.object "A"]), .frame .same,
      .operation (.branch (.exit .returnVoid))] }

/-- The events of a method with this body, up to its end. -/
def conflictingEvents : List ClassEvent := [
  .classStart sampleDeclaration, .methodStart sampleMethod, .body (.start 0 1),
  .body (.frame (.append [.object "A"])), .body (.frame .same),
  .body (.operation (.branch (.exit .returnVoid)))]

/-- The pool of the class with the class that the first frame names. -/
def conflictingPool : ConstantPool :=
  ⟨sampleClass.pool.entries ++ #[some (.utf8 "A"), some (.classRef 6)]⟩

theorem classIndex_conflicting :
    (ConstantPool.classIndex "A").run sampleClass.pool = .ok 7 conflictingPool :=
  ConstantPool.classIndex_run (by decide) (by decide) (by decide)

theorem complete_conflicting (m : Method) : (complete m (some conflictingDraft)).run
    sampleClass.pool = .error (.conflictingFrames 0) conflictingPool := by
  have hfirst : ∀ layout : Layout, (layout.assembleItem ⟨[], [], none⟩
      ⟨0, .frame (.append [.object "A"]), false⟩).run sampleClass.pool =
        .ok ⟨[], [⟨0, .append [.object 7]⟩], some 0⟩ conflictingPool := by
    intro layout
    refine PoolM.bind_eq_ok.2 ⟨⟨0, .append [.object 7]⟩, conflictingPool, ?_, rfl⟩
    refine PoolM.map_eq_ok.2 ⟨.append [.object 7], ?_, rfl⟩
    refine PoolM.map_eq_ok.2 ⟨[.object 7], ?_, rfl⟩
    rw [List.mapM_cons]
    exact PoolM.bind_eq_ok.2 ⟨_, _, PoolM.map_eq_ok.2 ⟨7, classIndex_conflicting, rfl⟩, rfl⟩
  -- the layout is found, the first frame is stored, and the second one has no distance
  refine PoolM.bind_eq_error.2 (.inl ?_)
  refine PoolM.bind_eq_error.2 (.inr ⟨_, _, rfl, PoolM.bind_eq_error.2 (.inl ?_)⟩)
  exact PoolM.bind_eq_error.2 (.inr ⟨_, _, hfirst _, rfl⟩)

/-- The end of this method is refused. The class ends behind it, with a pool that has grown, and
without the method. -/
theorem Reachable.refused_conflicting :
    let b := conflictingEvents.foldl (fun b e => (ClassBuilder.receive b e).1) .empty
    let lost : ClassFile := { ofDeclaration sampleDeclaration with pool := conflictingPool }
    Reachable b ∧
      ClassBuilder.receive b .methodEnd =
        (⟨some lost, none, false⟩, some (.conflictingFrames 0)) ∧
      (¬ ∀ rest, answers ⟨some lost, none, false⟩ rest = b.answers rest) ∧
      answers ⟨some lost, none, false⟩ [.classEnd] = ([none], .ok lost.write) ∧
      b.answers [.classEnd] = ([some (.unexpectedEvent .endInsideMethod)],
        .error (.unexpectedEvent .classUnfinished)) := by
  intro b lost
  have hreachable : Reachable b := reachable_foldl conflictingEvents .empty
  have hrefused : ClassBuilder.receive b .methodEnd =
      (⟨some lost, none, false⟩, some (.conflictingFrames 0)) := by
    have hpool : (ofDeclaration sampleDeclaration).pool = sampleClass.pool := rfl
    show closeMethod ⟨some (ofDeclaration sampleDeclaration), some (_, some conflictingDraft),
      false⟩ = _
    simp only [closeMethod, hpool, complete_conflicting]
    rfl
  obtain ⟨hsame, hlost⟩ := hreachable.refused hrefused
  obtain ⟨file, pool, -, -, hb', hafter, hbefore⟩ := hlost ⟨rfl, rfl⟩
  obtain ⟨hfile, -⟩ := ClassBuilder.mk.inj hb'
  rw [← Option.some.inj hfile] at hafter
  exact ⟨hreachable, hrefused, fun h => hsame.1 h ⟨rfl, rfl⟩, hafter, hbefore⟩

end ClassBuilder

end FreshLocal
