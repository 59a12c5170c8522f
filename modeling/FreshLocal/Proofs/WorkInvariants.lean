import FreshLocal.Proofs.DraftRequests
import FreshLocal.Proofs.InjectionFaults
import FreshLocal.Proofs.MethodByMethod

/-!
# Invariants of the work

Of all the work on a class only the storing of bodies touches the pool. So an
invariant of the pool that each body keeps when it is stored is kept by all of the
work. The other parts have plain faults, and what is true of these and of the
faults of the storing is true of whatever stops the work.

* `Obstacle.Meets`: an obstacle whose fault has a property, at one of some methods.
* `Method.plain_split`, `ClassFile.plain_declaration`, `MethodDeclaration.plain_draft`: the parts
  that do not touch the pool.
* `Method.StoredSafely`: the storing of a method keeps an invariant.
* `ClassFile.withFreshLocals_ok`, `ClassFile.withFreshLocals_error`: **so does all of the work**,
  and this is what may stop it.
-/

namespace FreshLocal

open PoolM

/-- Has the fault the property? If it is one of a body, is this the body of one of the methods? -/
def Obstacle.Meets (P : Fault → Prop) (pool : ConstantPool) (ms : List Method) : Obstacle → Prop
  | outside fault => P fault
  | body d _ fault => P fault ∧ ∃ m ∈ ms, ∃ code, m.split pool = .ok (d, some code)

/-- The faults of the injection into a body are plain. -/
theorem Fault.OfSlots.isPlain {fault : Fault} (h : fault.OfSlots) : fault.IsPlain := by
  cases fault with
  | inMethod _ _ | constantPoolFull _ => exact h.elim
  | _ => trivial

variable {options : Options} {name : BinaryName} {pool : ConstantPool} {d : MethodDeclaration}
  {code : Attribute} {I : ConstantPool → Prop} {P : Fault → Prop}

/-! ## The parts that do not touch the pool -/

theorem Method.plain_split (m : Method) : OnlyFaults Fault.IsPlain (m.split pool) := by
  refine (onlyFaults_mapError fun _ => trivial).bind fun name _ => ?_
  refine (onlyFaults_mapError fun _ => trivial).bind fun descriptor _ => ?_
  refine (onlyFaults_mapError fun _ => trivial).bind fun parts _ => ?_
  refine (onlyFaults_mapError fun _ => trivial).bind fun name' _ => ?_
  exact (onlyFaults_mapError fun _ => trivial).bind fun parsed _ => onlyFaults_ok _

theorem ClassFile.plain_declaration (c : ClassFile) :
    OnlyFaults Fault.IsPlain c.declaration := by
  refine (onlyFaults_mapError fun _ => trivial).bind fun name _ => ?_
  exact (onlyFaults_mapError fun _ => trivial).bind fun name' _ => onlyFaults_ok _

/-- **A body that is not sent** cannot be read, or cannot be carried over. -/
theorem Body.plain_draft (b : Body) :
    OnlyFaults (fun o => ∃ work fault, o = .body d work fault ∧ fault.IsPlain)
      (b.draft options name d) := by
  intro o h
  unfold Body.draft at h
  dsimp only at h
  split at h
  · rename_i fault hstopped
    cases h
    have hrun : Stage.run MethodInjection.step
        (.ofAllocator (options.allocator (.ofDeclaration d name))) b.events.1 =
          (_, _, some fault) := Prod.ext rfl (Prod.ext rfl hstopped)
    exact ⟨_, fault, rfl, (MethodInjection.ofSlots_run hrun).isPlain⟩
  · cases h
    exact ⟨_, _, rfl, trivial⟩
  · cases h

theorem MethodDeclaration.plain_draft :
    OnlyFaults (fun o => ∃ work fault, o = .body d work fault ∧ fault.IsPlain)
      (d.draft options name pool (some code)) := by
  refine (onlyFaults_mapError fun cause => ⟨_, _, rfl, trivial⟩).bind fun b _ => ?_
  exact b.plain_draft.map

/-! ## All of the work -/

/-- **Does the storing of a method keep the invariant**, and have its faults the property? -/
def Method.StoredSafely (options : Options) (name : BinaryName) (pool : ConstantPool)
    (I : ConstantPool → Prop) (P : Fault → Prop) (m : Method) : Prop :=
  ∀ d code body, m.split pool = .ok (d, some code) →
    d.draft options name pool (some code) = .ok (some body) →
      Safe I P (ClassBuilder.complete (ClassBuilder.ofMethodDeclaration d) (some body))

section Work

variable {m : Method} {ms all : List Method} {grown : ConstantPool}

namespace Method

/-- **A method that is stored** keeps the invariant. -/
theorem withFreshLocal_ok (hm : m.StoredSafely options name pool I P) (hI : I grown)
    {x : Method × ConstantPool} (h : m.withFreshLocal options name pool grown = .ok x) : I x.2 := by
  obtain ⟨⟨d, code⟩, hsplit, h⟩ := Except.bind_eq_ok.1 h
  obtain ⟨body, hdraft, h⟩ := Except.bind_eq_ok.1 h
  unfold MethodDeclaration.store at h
  split at h
  · rename_i m' grown' hrun
    cases h
    cases code with
    | none =>
      cases hdraft
      obtain ⟨-, rfl⟩ := pure_eq_ok.1 hrun
      exact hI
    | some code =>
      obtain ⟨b, draft, -, -, rfl⟩ := MethodDeclaration.draft_eq_ok hdraft
      have hsafe := hm d code draft (Except.mapError_eq_ok.1 hsplit) hdraft
      exact hsafe.ok grown m' grown' hI hrun
  · cases h

/-- **What may stop the work on a method.** -/
theorem withFreshLocal_error (hP : ∀ fault : Fault, fault.IsPlain → P fault)
    (hm : m.StoredSafely options name pool I P) (hmem : m ∈ all) (hI : I grown) :
    OnlyFaults (Obstacle.Meets P pool all) (m.withFreshLocal options name pool grown) := by
  cases hsplit : m.split pool with
  | error fault =>
    intro o h
    rw [withFreshLocal, hsplit] at h
    cases h
    exact hP fault (m.plain_split fault hsplit)
  | ok x =>
    obtain ⟨d, code⟩ := x
    rw [withFreshLocal, hsplit]
    cases code with
    | none =>
      intro o h
      cases h
    | some code =>
      have hbody : OnlyFaults (Obstacle.Meets P pool all)
          (d.draft options name pool (some code)) := by
        intro o h
        obtain ⟨work, fault, rfl, hplain⟩ := MethodDeclaration.plain_draft o h
        exact ⟨hP fault hplain, m, hmem, code, hsplit⟩
      refine hbody.bind fun body hdraft o h => ?_
      obtain ⟨b, draft, -, -, rfl⟩ := MethodDeclaration.draft_eq_ok hdraft
      unfold MethodDeclaration.store at h
      split at h
      · cases h
      · rename_i fault grown' hrun
        cases h
        have hsafe := hm d code draft hsplit hdraft
        exact ⟨(hsafe.error grown fault grown' hI hrun).2, m, hmem, code, hsplit⟩

theorem allWithFreshLocal_ok (hms : ∀ m ∈ ms, m.StoredSafely options name pool I P)
    (hI : I grown) {x : List Method × ConstantPool}
    (h : allWithFreshLocal options name pool ms grown = .ok x) : I x.2 := by
  induction ms generalizing grown x with
  | nil =>
    cases h
    exact hI
  | cons m ms ih =>
    obtain ⟨y, hm, h⟩ := Except.bind_eq_ok.1 h
    obtain ⟨z, hrest, h⟩ := Except.bind_eq_ok.1 h
    cases h
    have hy := withFreshLocal_ok (hms m List.mem_cons_self) hI hm
    have hz : I z.2 := ih (fun m hm => hms m (List.mem_cons_of_mem _ hm)) hy hrest
    exact hz

theorem allWithFreshLocal_error (hP : ∀ fault : Fault, fault.IsPlain → P fault)
    (hms : ∀ m ∈ ms, m.StoredSafely options name pool I P) (hall : ∀ m ∈ ms, m ∈ all)
    (hI : I grown) :
    OnlyFaults (Obstacle.Meets P pool all) (allWithFreshLocal options name pool ms grown) := by
  induction ms generalizing grown with
  | nil => exact onlyFaults_ok _
  | cons m ms ih =>
    have hm := hms m List.mem_cons_self
    refine (withFreshLocal_error hP hm (hall m List.mem_cons_self) hI).bind fun x hx => ?_
    have hrest := ih (fun m hm => hms m (List.mem_cons_of_mem _ hm))
      (fun m hm => hall m (List.mem_cons_of_mem _ hm)) (withFreshLocal_ok hm hI hx)
    exact hrest.bind fun y _ => onlyFaults_ok _

end Method

namespace ClassFile

variable {c : ClassFile}

/-- **A class that comes out** has a pool with the invariant. -/
theorem withFreshLocals_ok
    (hms : ∀ d, c.declaration = .ok d →
      ∀ m ∈ c.methods.toList, m.StoredSafely options d.name c.pool I P)
    (hI : I c.pool) {built : ClassFile} (h : c.withFreshLocals options = .ok built) :
    I built.pool := by
  obtain ⟨d, hd, h⟩ := Except.bind_eq_ok.1 h
  obtain ⟨x, hx, h⟩ := Except.bind_eq_ok.1 h
  cases h
  exact Method.allWithFreshLocal_ok (hms d (Except.mapError_eq_ok.1 hd)) hI hx

/-- **What may stop the work on a class.** -/
theorem withFreshLocals_error (hP : ∀ fault : Fault, fault.IsPlain → P fault)
    (hms : ∀ d, c.declaration = .ok d →
      ∀ m ∈ c.methods.toList, m.StoredSafely options d.name c.pool I P) (hI : I c.pool) :
    OnlyFaults (Obstacle.Meets P c.pool c.methods.toList) (c.withFreshLocals options) := by
  cases hd : c.declaration with
  | error fault =>
    intro o h
    rw [withFreshLocals, hd] at h
    cases h
    exact hP fault (c.plain_declaration fault hd)
  | ok d =>
    rw [withFreshLocals, hd]
    have hmethods := Method.allWithFreshLocal_error hP (hms d hd) (fun _ => id) hI
    exact hmethods.bind fun x _ => onlyFaults_ok _

end ClassFile

end Work

end FreshLocal
