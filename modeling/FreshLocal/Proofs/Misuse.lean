import FreshLocal.ClassBuilder
import FreshLocal.Proofs.FrameAssembly
import FreshLocal.Proofs.PoolInvariants
import FreshLocal.Script

/-!
# Faults of the sender

Most faults say something about a class. Some do not: a label that was never
placed, a label that was placed twice, and an event that came where it has no
place are mistakes of whoever sent the events. A step is **blameless** if none of
its faults is such a mistake.

* `Fault.IsMisuse`: the faults of the sender.
* `Blameless`, `PoolM.Blameless`: steps without such a fault, and how they
  are put together.
* `ClassFile.blameless_read`, `ConstantPool.blameless_classIndex`: reading a class
  and adding to the pool are such steps.
-/

namespace FreshLocal

/-- **Is the fault one of the sender of the events?** In the name of a method it still is. -/
def Fault.IsMisuse : Fault → Prop
  | unplacedLabel _ | duplicateLabel _ | unexpectedEvent _ => True
  | inMethod _ inner => inner.IsMisuse
  | _ => False

namespace Fault

variable {fault : Fault}

theorem isMisuse_inMethod (method : String) : (inMethod method fault).IsMisuse ↔ fault.IsMisuse :=
  Iff.rfl

theorem isMisuse_within (method : String) : (fault.within method).IsMisuse ↔ fault.IsMisuse := by
  cases fault <;> rfl

theorem isMisuse_blame (method : Option String) :
    (Step.blame method fault).IsMisuse ↔ fault.IsMisuse := by
  cases method <;> rfl

theorem isMisuse_refusal (title : Option String) (e : ClassEvent) :
    (Script.refusal title e fault).IsMisuse ↔ fault.IsMisuse := by
  unfold Script.refusal
  split
  · exact isMisuse_within _
  · rfl

end Fault

variable {α β : Type}

/-! ## Steps that may fail -/

section

variable {x : Except Fault α} {f : α → Except Fault β} {fault : Fault}

/-- No fault of the step is one of the sender. -/
def Blameless (x : Except Fault α) : Prop := ∀ fault, x = .error fault → ¬ fault.IsMisuse

theorem blameless_ok (a : α) : Blameless (.ok a) := onlyFaults_ok a

theorem blameless_error (h : ¬ fault.IsMisuse) : Blameless (.error fault : Except Fault α) :=
  onlyFaults_error h

theorem Blameless.bind (hx : Blameless x) (hf : ∀ a, x = .ok a → Blameless (f a)) :
    Blameless (x >>= f) :=
  OnlyFaults.bind hx hf

theorem Blameless.map {g : α → β} (hx : Blameless x) : Blameless (g <$> x) := OnlyFaults.map hx

theorem Blameless.mapM {xs : List α} (hf : ∀ a ∈ xs, Blameless (f a)) : Blameless (xs.mapM f) :=
  OnlyFaults.mapM hf

/-- A fault in other words is none of the sender if they are not. -/
theorem blameless_mapError {ε : Type} {y : Except ε α} {g : ε → Fault}
    (hg : ∀ e, ¬ (g e).IsMisuse) : Blameless (y.mapError g) :=
  onlyFaults_mapError hg

end

/-! ## Steps that may grow the pool -/

namespace PoolM

variable {x : PoolM α} {f : α → PoolM β}

/-- No fault of the step is one of the sender, whatever the pool holds. -/
def Blameless (x : PoolM α) : Prop :=
  ∀ ⦃p : ConstantPool⦄ ⦃fault : Fault⦄ ⦃q : ConstantPool⦄,
    x.run p = .error fault q → ¬ fault.IsMisuse

/-- Nothing is asked of the pool. -/
theorem blameless_iff_safe :
    x.Blameless ↔ Safe (fun _ => True) (fun fault => ¬ fault.IsMisuse) x := by
  constructor
  · intro h
    exact ⟨fun _ _ _ _ _ => trivial, fun p fault q _ hrun => ⟨trivial, h hrun⟩⟩
  · intro h p fault q hrun
    exact (h.error p fault q trivial hrun).2

theorem blameless_pure (a : α) : (pure a : PoolM α).Blameless :=
  blameless_iff_safe.2 (safe_pure a)

theorem blameless_throw {fault : Fault} (h : ¬ fault.IsMisuse) :
    (throw fault : PoolM α).Blameless :=
  blameless_iff_safe.2 (safe_throw h)

theorem blameless_ofExcept {e : Except Fault α} (h : FreshLocal.Blameless e) :
    (MonadExcept.ofExcept e : PoolM α).Blameless :=
  blameless_iff_safe.2 (safe_ofExcept h)

/-- A step may use what the one before it came to. -/
theorem Blameless.bind_of (hx : x.Blameless)
    (hf : ∀ p a q, x.run p = .ok a q → (f a).Blameless) : (x >>= f).Blameless :=
  blameless_iff_safe.2 ((blameless_iff_safe.1 hx).bind_of fun p a q h =>
    blameless_iff_safe.1 (hf p a q h))

theorem Blameless.bind (hx : x.Blameless) (hf : ∀ a, (f a).Blameless) : (x >>= f).Blameless :=
  hx.bind_of fun _ a _ _ => hf a

/-- A step behind one that has nothing to do with the pool. -/
theorem Blameless.bind_ofExcept {e : Except Fault α} (he : FreshLocal.Blameless e)
    (hf : ∀ a, e = .ok a → (f a).Blameless) :
    ((MonadExcept.ofExcept e : PoolM α) >>= f).Blameless :=
  (blameless_ofExcept he).bind_of fun _ a _ h => hf a (ofExcept_eq_ok.1 h).1

theorem Blameless.map {g : α → β} (hx : x.Blameless) : (g <$> x).Blameless :=
  blameless_iff_safe.2 (blameless_iff_safe.1 hx).map

theorem Blameless.seq {g : PoolM (α → β)} (hg : g.Blameless) (hx : x.Blameless) :
    (g <*> x).Blameless :=
  blameless_iff_safe.2 ((blameless_iff_safe.1 hg).seq (blameless_iff_safe.1 hx))

theorem Blameless.mapM {xs : List α} (hf : ∀ a ∈ xs, (f a).Blameless) : (xs.mapM f).Blameless :=
  blameless_iff_safe.2 (.mapM fun a ha => blameless_iff_safe.1 (hf a ha))

theorem Blameless.foldlM {σ : Type} {g : σ → α → PoolM σ} {xs : List α}
    (hg : ∀ a ∈ xs, ∀ s, (g s a).Blameless) (s : σ) : (xs.foldlM g s).Blameless :=
  blameless_iff_safe.2 (.foldlM (fun a ha s => blameless_iff_safe.1 (hg a ha s)) s)

end PoolM

namespace ConstantPool

/-- A pool that is full is no fault of the sender. -/
theorem blameless_textIndex (text : String) : (textIndex text).Blameless :=
  PoolM.blameless_iff_safe.2 (safe_textIndex (fun _ => id) (addKeeps_true _))

theorem blameless_classIndex (name : String) : (classIndex name).Blameless :=
  PoolM.blameless_iff_safe.2
    (safe_classIndex (fun _ => id) (addKeeps_true _) fun _ => addKeeps_true _)

end ConstantPool

/-- **Bytes that are no class file** are no fault of the sender. -/
theorem ClassFile.blameless_read (bytes : Bytes) : Blameless (read bytes) :=
  ClassFile.onlyFaults_read (fun _ => id) (fun _ => id) bytes

end FreshLocal
