import FreshLocal.Fault
import Mathlib.Data.List.Forall2
import Mathlib.Tactic

/-!
# Steps that may fail

When a chain of steps succeeds, so does each step, and a list of steps succeeds
exactly if each of them does. These lemmas take such chains apart.

* `Except.bind_eq_ok`, `Except.map_eq_ok`: a step and what comes behind it.
* `mapM_eq_ok`: the steps of a list, as a relation between the two lists.
* `OnlyFaults`: the faults of a step have a property, and how such steps are put together.
-/

namespace FreshLocal

variable {ε ε' α β γ : Type}

theorem Except.bind_eq_ok {x : Except ε α} {f : α → Except ε β} {b : β} :
    x >>= f = .ok b ↔ ∃ a, x = .ok a ∧ f a = .ok b := by
  cases x <;> simp [bind, Except.bind]

theorem Except.map_eq_ok {x : Except ε α} {f : α → β} {b : β} :
    f <$> x = .ok b ↔ ∃ a, x = .ok a ∧ f a = b := by
  cases x <;> simp [Functor.map, Except.map]

theorem Except.seq_eq_ok {f : Except ε (α → β)} {x : Except ε α} {b : β} :
    f <*> x = .ok b ↔ ∃ g a, f = .ok g ∧ x = .ok a ∧ g a = b := by
  cases f <;> cases x <;> simp [Seq.seq, Except.bind, Except.map]

theorem Except.mapError_eq_ok {x : Except ε α} {f : ε → ε'} {a : α} :
    x.mapError f = .ok a ↔ x = .ok a := by
  cases x <;> simp [Except.mapError]

@[simp] theorem Except.pure_eq_ok {a b : α} : (pure a : Except ε α) = .ok b ↔ a = b := by
  simp [pure, Except.pure]

/-- **A list of steps** succeeds exactly if each step does. -/
theorem mapM_eq_ok {f : α → Except ε β} {xs : List α} {ys : List β} :
    xs.mapM f = .ok ys ↔ List.Forall₂ (fun x y => f x = .ok y) xs ys := by
  induction xs generalizing ys with
  | nil => cases ys <;> simp [pure, Except.pure]
  | cons x xs ih =>
    rw [List.mapM_cons, Except.bind_eq_ok]
    constructor
    · rintro ⟨y, hy, h⟩
      obtain ⟨ys', hys, h⟩ := Except.bind_eq_ok.1 h
      cases h
      exact .cons hy (ih.1 hys)
    · rintro (_ | ⟨hy, hys⟩)
      exact ⟨_, hy, Except.bind_eq_ok.2 ⟨_, ih.2 hys, rfl⟩⟩

theorem exists_of_mem_right {R : α → β → Prop} {xs : List α} {ys : List β} {y : β}
    (h : List.Forall₂ R xs ys) (hy : y ∈ ys) : ∃ x ∈ xs, R x y := by
  induction h with
  | nil => cases hy
  | cons hxy _ ih =>
    obtain rfl | hy := List.mem_cons.1 hy
    · exact ⟨_, List.mem_cons_self, hxy⟩
    · obtain ⟨x, hx, hxy⟩ := ih hy
      exact ⟨x, List.mem_cons_of_mem _ hx, hxy⟩

theorem mem_of_mapM {f : α → Except ε β} {xs : List α} {ys : List β} {y : β}
    (h : xs.mapM f = .ok ys) (hy : y ∈ ys) : ∃ x ∈ xs, f x = .ok y :=
  exists_of_mem_right (R := fun x y => f x = .ok y) (mapM_eq_ok.1 h) hy

section Faults

variable {P : ε → Prop} {x : Except ε α} {f : α → Except ε β}

/-- **The faults of a step have a property**, if it fails. -/
def OnlyFaults (P : ε → Prop) (x : Except ε α) : Prop := ∀ fault, x = .error fault → P fault

theorem onlyFaults_ok (a : α) : OnlyFaults P (.ok a : Except ε α) := fun _ h => by cases h

theorem onlyFaults_error {fault : ε} (h : P fault) : OnlyFaults P (.error fault : Except ε α) := by
  intro fault' heq
  cases heq
  exact h

theorem OnlyFaults.bind (hx : OnlyFaults P x) (hf : ∀ a, x = .ok a → OnlyFaults P (f a)) :
    OnlyFaults P (x >>= f) := by
  cases x with
  | error fault => exact onlyFaults_error (hx fault rfl)
  | ok a => exact hf a rfl

theorem OnlyFaults.map {g : α → β} (hx : OnlyFaults P x) : OnlyFaults P (g <$> x) := by
  cases x with
  | error fault => exact onlyFaults_error (hx fault rfl)
  | ok a => exact onlyFaults_ok _

theorem OnlyFaults.mapM {xs : List α} (hf : ∀ a ∈ xs, OnlyFaults P (f a)) :
    OnlyFaults P (xs.mapM f) := by
  induction xs with
  | nil => exact onlyFaults_ok _
  | cons a xs ih =>
    rw [List.mapM_cons]
    refine (hf a List.mem_cons_self).bind fun b _ => ?_
    exact (ih fun a ha => hf a (List.mem_cons_of_mem _ ha)).bind fun bs _ => onlyFaults_ok _

/-- A fault in other words has the property if these words have it. -/
theorem onlyFaults_mapError {y : Except ε' α} {g : ε' → ε} (hg : ∀ e, P (g e)) :
    OnlyFaults P (y.mapError g) := by
  cases y with
  | error e => exact onlyFaults_error (hg e)
  | ok a => exact onlyFaults_ok a

end Faults

end FreshLocal
