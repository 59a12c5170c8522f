import FreshLocal.Proofs.ClassAssembly
import FreshLocal.Proofs.DraftRequests

/-!
# What comes into the pool

The builder adds texts to the pool for two things only: the names of the
attributes that it makes, and the classes that frames name. Nothing is asked here
of the pool that the class came with, nor of the length of names.

* `PoolM.AddsOnly`: a step that adds no other texts than some.
* `ClassBuilder.addsOnly_complete`: **the storing of a method** adds names of
  attributes and of classes.
* `ClassBuilder.Builds.adds`: **so does the building of all methods**.
-/

namespace FreshLocal

open PoolM

/-- Does the pool have the text? -/
def ConstantPool.HasText (pool : ConstantPool) (text : String) : Prop :=
  some (.utf8 text) ∈ pool.entries.toList

/-- A step that adds no other texts than some, and as many constants as there is room for. -/
def PoolM.AddsOnly {α : Type} (Texts : String → Prop) (x : PoolM α) : Prop :=
  ∀ ⦃p : ConstantPool⦄ ⦃a : α⦄ ⦃q : ConstantPool⦄, x.run p = .ok a q →
    (p.count ≤ 65535 → q.count ≤ 65535) ∧ ∀ text, q.HasText text → p.HasText text ∨ Texts text

/-- Putting a constant at the end adds no text but its own. -/
theorem ConstantPool.addKeeps_texts {base : ConstantPool} {Texts : String → Prop} {c : Constant}
    (hc : ∀ text, c = .utf8 text → Texts text) : AddKeeps (fun q =>
      (base.count ≤ 65535 → q.count ≤ 65535) ∧
        ∀ text, q.HasText text → base.HasText text ∨ Texts text) c := by
  rintro p i q ⟨-, htexts⟩ hadd
  obtain ⟨hroom, -, hq⟩ := add_eq_ok hadd
  refine ⟨fun _ => ?_, fun text htext => ?_⟩
  · rwa [count_of_append hq]
  · rw [HasText, hq] at htext
    obtain htext | htext := List.mem_append.1 htext
    · exact htexts text htext
    · obtain htext | htext := List.mem_cons.1 htext
      · exact .inr (hc text (Option.some.inj htext).symm)
      · cases List.eq_of_mem_replicate htext

namespace ClassBuilder

variable {pool pool' : ConstantPool} {xs : List SentMethod} {ms : List Method}

/-- **The storing of a method** adds names that are short, and the classes of its frames. -/
theorem addsOnly_complete {m : Method} {draft : Option Draft} {events : List BodyEvent}
    (hdraft : Drafted events draft) : AddsOnly (fun text => ShortText text ∨
      ∃ f, .frame f ∈ events ∧ .object text ∈ f.types) (complete m draft) := by
  intro p m' q hm
  let Texts : String → Prop := fun text => ShortText text ∨
    ∃ f, .frame f ∈ events ∧ .object text ∈ f.types
  let Adds : ConstantPool → Prop := fun q => (p.count ≤ 65535 → q.count ≤ 65535) ∧
    ∀ text, q.HasText text → p.HasText text ∨ Texts text
  have hrequest : ∀ r : PoolRequest, Texts r.name → Safe Adds (fun _ => True) r.index := by
    intro r hr
    refine r.safe_index (fun _ => trivial) ?_ fun n => ?_
    · exact ConstantPool.addKeeps_texts fun text htext => Constant.utf8.inj htext ▸ hr
    · exact ConstantPool.addKeeps_texts fun text htext => by cases htext
  have hsafe : Safe Adds (fun _ => True) (complete m draft) := by
    refine safe_complete (fun _ _ => trivial) ?_
    rintro d rfl
    refine ⟨hrequest (.text CodeAttribute.name) (.inl CodeAttribute.shortText_name), ?_⟩
    intro r hr
    obtain htable | hframe := hr.name_of_holds hdraft.2
    · exact hrequest r (.inl (shortText_tableNames _ htable))
    · exact hrequest r (.inr hframe)
  exact hsafe.ok p m' q ⟨id, fun text => .inl⟩ hm

/-- **The building of methods** adds names that are short, and the classes of frames. -/
theorem Builds.adds (h : Builds pool xs ms pool') :
    (pool.count ≤ 65535 → pool'.count ≤ 65535) ∧ ∀ text, pool'.HasText text →
      pool.HasText text ∨ ShortText text ∨
        ∃ x ∈ xs, ∃ f, .frame f ∈ x.2 ∧ .object text ∈ f.types := by
  induction h with
  | nil pool => exact ⟨id, fun text => .inl⟩
  | @cons x xs m ms pool₁ pool₂ pool₃ draft hdraft hm _ ih =>
    obtain ⟨hcount, htexts⟩ := addsOnly_complete hdraft hm
    obtain ⟨hcountRest, htextsRest⟩ := ih
    refine ⟨fun h => hcountRest (hcount h), fun text htext => ?_⟩
    obtain htext | hshort | ⟨y, hy, hf⟩ := htextsRest text htext
    · obtain htext | hshort | hf := htexts text htext
      · exact .inl htext
      · exact .inr (.inl hshort)
      · exact .inr (.inr ⟨x, List.mem_cons_self, hf⟩)
    · exact .inr (.inl hshort)
    · exact .inr (.inr ⟨y, List.mem_cons_of_mem _ hy, hf⟩)

end ClassBuilder

end FreshLocal
