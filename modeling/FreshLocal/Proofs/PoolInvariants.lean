import FreshLocal.AnnotatedType
import FreshLocal.ClassFile
import FreshLocal.CodeAttribute
import FreshLocal.Instruction
import FreshLocal.Proofs.PoolGrowth

/-!
# Steps that keep an invariant of the pool

A step that works on the pool may fail, and then it keeps what it added. So an
invariant of the pool is one of both outcomes, and with it comes what can be said
of the faults.

* `PoolM.Safe`: a step that keeps an invariant of the pool, and whose faults have a
  property; and how such steps are put together.
* `ConstantPool.safe_intern`: **asking for a constant** is safe if adding it is.
* `ClassFile.onlyFaults_read`: the faults of bytes that are no class file.
* `Branch.onlyFaults_mapM`, `Handler.onlyFaults_mapM`, `AnnotatedType.onlyFaults_mapM`:
  the faults of looking up positions.
-/

namespace FreshLocal

namespace PoolM

variable {α β : Type} {x : PoolM α} {f : α → PoolM β} {I : ConstantPool → Prop} {P : Fault → Prop}

/-- **A step that keeps an invariant of the pool**, also when it fails, and whose faults have a
property. -/
structure Safe (I : ConstantPool → Prop) (P : Fault → Prop) (x : PoolM α) : Prop where
  ok : ∀ p a q, I p → x.run p = .ok a q → I q
  error : ∀ p fault q, I p → x.run p = .error fault q → I q ∧ P fault

theorem safe_pure (a : α) : Safe I P (pure a : PoolM α) := by
  refine ⟨fun p a' q hp h => ?_, fun p fault q _ h => ?_⟩
  · obtain ⟨-, rfl⟩ := pure_eq_ok.1 h
    exact hp
  · cases h

theorem safe_throw {fault : Fault} (h : P fault) : Safe I P (throw fault : PoolM α) := by
  refine ⟨fun p a q _ hrun => absurd hrun throw_ne_ok, fun p fault' q hp hrun => ?_⟩
  change EStateM.Result.error fault p = .error fault' q at hrun
  cases hrun
  exact ⟨hp, h⟩

theorem safe_ofExcept {e : Except Fault α} (h : OnlyFaults P e) :
    Safe I P (MonadExcept.ofExcept e : PoolM α) := by
  cases e with
  | error fault => exact safe_throw (h fault rfl)
  | ok a => exact safe_pure a

/-- A step may use what the one before it came to. -/
theorem Safe.bind_of (hx : Safe I P x) (hf : ∀ p a q, x.run p = .ok a q → Safe I P (f a)) :
    Safe I P (x >>= f) := by
  refine ⟨fun p b q hp h => ?_, fun p fault q hp h => ?_⟩
  · obtain ⟨a, r, ha, hb⟩ := bind_eq_ok.1 h
    exact (hf p a r ha).ok r b q (hx.ok p a r hp ha) hb
  · obtain hrefused | ⟨a, r, ha, hbehind⟩ := bind_eq_error.1 h
    · exact hx.error p fault q hp hrefused
    · exact (hf p a r ha).error r fault q (hx.ok p a r hp ha) hbehind

theorem Safe.bind (hx : Safe I P x) (hf : ∀ a, Safe I P (f a)) : Safe I P (x >>= f) :=
  hx.bind_of fun _ a _ _ => hf a

/-- A step behind one that has nothing to do with the pool. -/
theorem Safe.bind_ofExcept {e : Except Fault α} (he : OnlyFaults P e)
    (hf : ∀ a, e = .ok a → Safe I P (f a)) :
    Safe I P ((MonadExcept.ofExcept e : PoolM α) >>= f) :=
  (safe_ofExcept he).bind_of fun _ a _ h => hf a (ofExcept_eq_ok.1 h).1

theorem Safe.map {g : α → β} (hx : Safe I P x) : Safe I P (g <$> x) := by
  rw [map_eq_pure_bind]
  exact hx.bind fun _ => safe_pure _

theorem Safe.seq {g : PoolM (α → β)} (hg : Safe I P g) (hx : Safe I P x) :
    Safe I P (g <*> x) := by
  rw [seq_eq_bind_map]
  exact hg.bind fun _ => hx.map

theorem Safe.mapM {xs : List α} (hf : ∀ a ∈ xs, Safe I P (f a)) : Safe I P (xs.mapM f) := by
  induction xs with
  | nil => exact safe_pure []
  | cons a xs ih =>
    rw [List.mapM_cons]
    have hrest := ih fun a ha => hf a (List.mem_cons_of_mem _ ha)
    exact (hf a List.mem_cons_self).bind fun b => hrest.bind fun bs => safe_pure (b :: bs)

/-- Steps over a list, each of which may use what those before it have come to. -/
theorem Safe.foldlM_behind {σ : Type} {g : σ → α → PoolM σ} {R : List α → σ → Prop}
    {xs : List α} {s : σ} (done : List α) (hs : R done s)
    (hg : ∀ before a after s, done ++ xs = before ++ a :: after → R before s → Safe I P (g s a))
    (hR : ∀ before a s t p q, R before s → (g s a).run p = .ok t q → R (before ++ [a]) t) :
    Safe I P (xs.foldlM g s) := by
  induction xs generalizing done s with
  | nil => exact safe_pure s
  | cons a xs ih =>
    rw [List.foldlM_cons]
    refine (hg done a xs s rfl hs).bind_of fun p t q ht => ?_
    refine ih (done ++ [a]) (hR done a s t p q hs ht) fun before b after u hsplit => ?_
    rw [List.append_assoc, List.singleton_append] at hsplit
    exact hg before b after u hsplit

theorem Safe.foldlM {σ : Type} {g : σ → α → PoolM σ} {xs : List α}
    (hg : ∀ a ∈ xs, ∀ s, Safe I P (g s a)) (s : σ) : Safe I P (xs.foldlM g s) := by
  refine Safe.foldlM_behind (R := fun _ _ => True) [] trivial (fun before a after s hsplit _ => ?_)
    fun _ _ _ _ _ _ _ _ => trivial
  rw [List.nil_append] at hsplit
  exact hg a (by simp [hsplit]) s

end PoolM

/-! ## Asking for constants -/

/-- Does putting a constant at the end keep the invariant? -/
def ConstantPool.AddKeeps (I : ConstantPool → Prop) (c : Constant) : Prop :=
  ∀ p i q, I p → (add c).run p = .ok i q → I q

namespace ConstantPool

theorem addKeeps_true (c : Constant) : AddKeeps (fun _ => True) c := fun _ _ _ _ _ => trivial

theorem addKeeps_grows (base : ConstantPool) (c : Constant) : AddKeeps base.Grows c :=
  fun _ _ _ hp h => hp.trans ⟨_, (add_eq_ok h).2.2⟩

theorem addKeeps_stored {c : Constant} (hc : c.Fits) : AddKeeps Stored c :=
  fun _ _ _ hp h => hp.add hc h

theorem AddKeeps.and {I J : ConstantPool → Prop} {c : Constant} (hI : AddKeeps I c)
    (hJ : AddKeeps J c) : AddKeeps (fun p => I p ∧ J p) c :=
  fun p i q hp h => ⟨hI p i q hp.1 h, hJ p i q hp.2 h⟩

end ConstantPool

section Full

variable {I : ConstantPool → Prop} {P : Fault → Prop} (hfull : ∀ index, P (.constantPoolFull index))

include hfull

namespace ConstantPool

/-- **Asking for a constant** puts it at the end at most, and fails only if the pool is full. -/
theorem safe_intern {c : Constant} (hc : AddKeeps I c) : PoolM.Safe I P (intern c) := by
  refine ⟨fun p i q hp h => ?_, fun p fault q hp h => ?_⟩
  · obtain ⟨-, rfl⟩ | ⟨-, hadd⟩ := intern_cases h
    · exact hp
    · exact hc p i q hp hadd
  · obtain ⟨⟨index, rfl⟩, rfl⟩ := intern_eq_error h
    exact ⟨hp, hfull index⟩

theorem safe_textIndex {text : String} (h : AddKeeps I (.utf8 text)) :
    PoolM.Safe I P (textIndex text) := safe_intern hfull h

theorem safe_classIndex {name : String} (htext : AddKeeps I (.utf8 name))
    (hclass : ∀ n, AddKeeps I (.classRef n)) : PoolM.Safe I P (classIndex name) :=
  (safe_textIndex hfull htext).bind fun n => safe_intern hfull (hclass n)

variable (hdecode : ∀ cause, P (.decode cause))

include hdecode

theorem onlyFaults_readOnto (count fuel : Nat) (pool : ConstantPool) (c : Cursor) :
    OnlyFaults P (readOnto count fuel pool c) := by
  induction fuel generalizing pool c with
  | zero => exact onlyFaults_ok _
  | succ fuel ih =>
    unfold readOnto
    split
    · split
      · exact onlyFaults_error (hdecode _)
      · split
        · rename_i fault q hadd
          obtain ⟨rfl, -⟩ := add_eq_error hadd
          exact onlyFaults_error (hfull _)
        · exact ih _ _
    · exact onlyFaults_ok _

theorem onlyFaults_read (c : Cursor) : OnlyFaults P (read c) := by
  unfold read
  split
  · exact onlyFaults_error (hdecode _)
  · exact onlyFaults_readOnto hfull hdecode _ _ _ _

end ConstantPool

/-- **Bytes that are no class file**: they are malformed, or their pool is too large. -/
theorem ClassFile.onlyFaults_read (hdecode : ∀ cause, P (.decode cause)) (bytes : Bytes) :
    OnlyFaults P (read bytes) := by
  refine (onlyFaults_mapError hdecode).bind fun x _ => ?_
  refine (ConstantPool.onlyFaults_read hfull hdecode _).bind fun y _ => ?_
  refine (onlyFaults_mapError hdecode).bind fun z _ => ?_
  dsimp only
  split
  · exact onlyFaults_ok _
  · exact onlyFaults_error (hdecode _)

end Full

/-! ## Positions that may fail -/

section Positions

variable {π π' : Type} {f : π → Except Fault π'} {P : Fault → Prop}

theorem Branch.onlyFaults_mapM {b : Branch π} (hf : ∀ l ∈ b.targets, OnlyFaults P (f l)) :
    OnlyFaults P (b.mapM f) := by
  cases b with
  | jump _ l | goto l | jsr l => exact (hf l List.mem_cons_self).map
  | tableSwitch default_ low targets =>
    refine (hf _ List.mem_cons_self).bind fun _ _ => ?_
    exact (OnlyFaults.mapM fun l hl => hf l (List.mem_cons_of_mem _ hl)).bind
      fun _ _ => onlyFaults_ok _
  | lookupSwitch default_ cases =>
    refine (hf _ List.mem_cons_self).bind fun _ _ => ?_
    refine OnlyFaults.bind (OnlyFaults.mapM fun x hx => ?_) fun _ _ => onlyFaults_ok _
    exact (hf x.2 (List.mem_cons_of_mem _ (List.mem_map_of_mem hx))).map
  | exit e => exact onlyFaults_ok _

theorem Handler.onlyFaults_mapM {h : Handler π} (hf : ∀ l ∈ h.positions, OnlyFaults P (f l)) :
    OnlyFaults P (h.mapM f) := by
  simp only [positions, List.forall_mem_cons] at hf
  obtain ⟨hstart, hstop, htarget, -⟩ := hf
  exact hstart.bind fun _ _ => hstop.bind fun _ _ => htarget.bind fun _ _ => onlyFaults_ok _

theorem AnnotatedType.onlyFaults_mapM {a : AnnotatedType π}
    (hf : ∀ l ∈ a.target.positions, OnlyFaults P (f l)) : OnlyFaults P (a.mapM f) := by
  refine OnlyFaults.bind ?_ fun _ _ => onlyFaults_ok _
  cases htarget : a.target with
  | localVariable isResource ranges =>
    rw [htarget] at hf
    refine OnlyFaults.map (OnlyFaults.mapM fun r hr => ?_)
    have hrange : ∀ l ∈ [r.start, r.stop], OnlyFaults P (f l) := fun l hl =>
      hf l (List.mem_flatMap.2 ⟨r, hr, hl⟩)
    refine (hrange _ List.mem_cons_self).bind fun _ _ => ?_
    exact (hrange _ (List.mem_cons_of_mem _ List.mem_cons_self)).bind fun _ _ => onlyFaults_ok _
  | handler index => exact onlyFaults_ok _
  | instruction kind l | typeArgument kind l index =>
    rw [htarget] at hf
    exact (hf l List.mem_cons_self).map

end Positions

end FreshLocal
