import FreshLocal.ConstantPool
import FreshLocal.Proofs.Reading
import FreshLocal.Proofs.Text

/-!
# The constant pool grows

A pool holds its constants one behind the other, and a step that succeeds puts
others behind them. So what an index stands for stays the same.

* `ConstantPool.Grows`: a pool with other constants behind those of the first.
* `ConstantPool.Stored`: a pool that a class file can hold.
* `Interns`, `GivesClass`: what asking for a constant or a class does to a pool with an
  invariant.
* `textIndex_eq_ok`, `classIndex_eq_ok`: **an index for a text or a class** stands for it.
-/

namespace FreshLocal

/-- Can a constant hold the text? -/
def ShortText (text : String) : Prop := (ModifiedUtf8.encode text).length ≤ 65535

theorem ShortText.of_length {text : String} (h : 6 * text.toList.length ≤ 65535) :
    ShortText text :=
  (ModifiedUtf8.length_encode_le_chars text).trans h

/-- Can the length of the constant be written? -/
def Constant.Fits : Constant → Prop
  | utf8 text => ShortText text
  | _ => True

namespace PoolM

variable {α β : Type} {x : PoolM α} {f : α → PoolM β} {p q : ConstantPool} {a a' : α} {b : β}

theorem bind_eq_ok : (x >>= f).run p = .ok b q ↔
    ∃ a p', x.run p = .ok a p' ∧ (f a).run p' = .ok b q := by
  change EStateM.bind x f p = _ ↔ _
  unfold EStateM.bind EStateM.run
  rcases x p with ⟨a, p'⟩ | ⟨fault, p'⟩
  · simp
  · simp

/-- The fault of two steps is one of the first, or one of the second behind it. -/
theorem bind_eq_error {fault : Fault} : (x >>= f).run p = .error fault q ↔
    x.run p = .error fault q ∨ ∃ a p', x.run p = .ok a p' ∧ (f a).run p' = .error fault q := by
  change EStateM.bind x f p = _ ↔ _
  unfold EStateM.bind EStateM.run
  rcases x p with ⟨a, p'⟩ | ⟨fault', p'⟩
  · simp
  · simp

/-- A step that looks at the pool first. -/
theorem get_bind_run (f : ConstantPool → PoolM α) (p : ConstantPool) :
    (get >>= f).run p = (f p).run p := rfl

theorem map_eq_ok {g : α → β} : (g <$> x).run p = .ok b q ↔
    ∃ a, x.run p = .ok a q ∧ g a = b := by
  change EStateM.map g x p = _ ↔ _
  unfold EStateM.map EStateM.run
  rcases x p with ⟨a, p'⟩ | ⟨fault, p'⟩
  · simp only [EStateM.Result.ok.injEq]
    constructor
    · rintro ⟨rfl, rfl⟩; exact ⟨a, ⟨rfl, rfl⟩, rfl⟩
    · rintro ⟨_, ⟨rfl, rfl⟩, rfl⟩; exact ⟨rfl, rfl⟩
  · simp

theorem seq_eq_ok {g : PoolM (α → β)} : (g <*> x).run p = .ok b q ↔
    ∃ k p' a, g.run p = .ok k p' ∧ x.run p' = .ok a q ∧ k a = b := by
  change (g >>= fun k => k <$> x).run p = _ ↔ _
  rw [bind_eq_ok]
  simp only [map_eq_ok]
  constructor
  · rintro ⟨k, p', hk, a, ha, rfl⟩; exact ⟨k, p', a, hk, ha, rfl⟩
  · rintro ⟨k, p', a, hk, ha, rfl⟩; exact ⟨k, p', hk, a, ha, rfl⟩

theorem pure_eq_ok : (pure a : PoolM α).run p = .ok a' q ↔ a = a' ∧ p = q := by
  change EStateM.pure a p = _ ↔ _
  simp [EStateM.pure]

theorem throw_ne_ok {fault : Fault} : (throw fault : PoolM α).run p ≠ .ok a q := by
  intro h
  change EStateM.Result.error fault p = .ok a q at h
  cases h

/-- A step that has nothing to do with the pool. -/
theorem ofExcept_eq_ok {e : Except Fault α} :
    (MonadExcept.ofExcept e : PoolM α).run p = .ok a q ↔ e = .ok a ∧ p = q := by
  cases e with
  | error fault => simp [MonadExcept.ofExcept, throw_ne_ok]
  | ok a => simp [MonadExcept.ofExcept]

/-- In a list of steps each step succeeds. -/
theorem forall₂_of_mapM {xs : List α} {ys : List β} (h : (xs.mapM f).run p = .ok ys q) :
    List.Forall₂ (fun x y => ∃ p q, (f x).run p = .ok y q) xs ys := by
  induction xs generalizing p ys with
  | nil =>
    obtain ⟨rfl, -⟩ := pure_eq_ok.1 h
    exact .nil
  | cons x xs ih =>
    rw [List.mapM_cons] at h
    obtain ⟨y, r, hy, h⟩ := bind_eq_ok.1 h
    obtain ⟨ys', r', hys, h⟩ := bind_eq_ok.1 h
    obtain ⟨rfl, rfl⟩ := pure_eq_ok.1 h
    exact .cons ⟨p, r, hy⟩ (ih hys)

end PoolM

namespace ConstantPool

variable {p q r : ConstantPool} {c : Constant} {i : PoolIndex} {text : String}

/-- The second pool has the constants of the first, and perhaps some behind them. -/
def Grows (p q : ConstantPool) : Prop := ∃ more, q.entries.toList = p.entries.toList ++ more

theorem Grows.refl (p : ConstantPool) : p.Grows p := ⟨[], by simp⟩

theorem Grows.trans (h : p.Grows q) (h' : q.Grows r) : p.Grows r := by
  obtain ⟨more, hq⟩ := h
  obtain ⟨more', hr⟩ := h'
  exact ⟨more ++ more', by rw [hr, hq, List.append_assoc]⟩

theorem lookup_eq_ok : p.lookup i = .ok c ↔ p.entries.toList[i.toNat]? = some (some c) := by
  unfold lookup
  rw [Array.getElem?_toList]
  split
  · rename_i c' h; simp [h]
  · rename_i h
    simp only [reduceCtorEq, false_iff]
    exact fun hc => h c hc

/-- **An index keeps its meaning.** -/
theorem Grows.lookup (h : p.Grows q) (hc : p.lookup i = .ok c) : q.lookup i = .ok c := by
  obtain ⟨more, hq⟩ := h
  rw [lookup_eq_ok] at hc ⊢
  have hi : i.toNat < p.entries.toList.length := by
    by_contra hn
    rw [List.getElem?_eq_none (Nat.le_of_not_lt hn)] at hc
    cases hc
  rw [hq, List.getElem?_append_left hi, hc]

theorem utf8_eq_ok : p.utf8 i = .ok text ↔ p.lookup i = .ok (.utf8 text) := by
  unfold utf8
  rw [Except.bind_eq_ok]
  constructor
  · rintro ⟨c, hc, h⟩
    split at h
    · cases h; exact hc
    · cases h
  · intro h; exact ⟨_, h, rfl⟩

theorem className_eq_ok : p.className i = .ok text ↔
    ∃ name, p.lookup i = .ok (.classRef name) ∧ p.lookup name = .ok (.utf8 text) := by
  unfold className
  rw [Except.bind_eq_ok]
  constructor
  · rintro ⟨c, hc, h⟩
    split at h
    · exact ⟨_, hc, utf8_eq_ok.1 h⟩
    · cases h
  · rintro ⟨name, hc, h⟩; exact ⟨_, hc, utf8_eq_ok.2 h⟩

theorem Grows.utf8 (h : p.Grows q) (ht : p.utf8 i = .ok text) : q.utf8 i = .ok text := by
  rw [utf8_eq_ok] at ht ⊢
  exact h.lookup ht

theorem Grows.className (h : p.Grows q) (ht : p.className i = .ok text) :
    q.className i = .ok text := by
  rw [className_eq_ok] at ht ⊢
  obtain ⟨name, hc, ht⟩ := ht
  exact ⟨name, h.lookup hc, h.lookup ht⟩

/-- The pool holds these constants, one behind the other. -/
def Holds (p : ConstantPool) (constants : List Constant) : Prop :=
  p.entries.toList = none :: constants.flatMap slots

/-- A pool that a class file can hold. -/
def Stored (p : ConstantPool) : Prop :=
  ∃ constants, p.Holds constants ∧ p.count ≤ 65535 ∧ ∀ c ∈ constants, c.Fits

/-- **A constant of a pool** that a class file can hold fits. -/
theorem Stored.fits (hp : p.Stored) (h : p.lookup i = .ok c) : c.Fits := by
  obtain ⟨constants, hholds, -, hfits⟩ := hp
  rw [lookup_eq_ok, hholds] at h
  have hmem : some c ∈ none :: constants.flatMap slots := List.mem_of_getElem? h
  rw [List.mem_cons, List.mem_flatMap] at hmem
  obtain hnone | ⟨c', hc', hmem⟩ := hmem
  · cases hnone
  · rw [slots, List.mem_cons] at hmem
    obtain heq | hmem := hmem
    · rw [Option.some.inj heq]; exact hfits c' hc'
    · cases List.eq_of_mem_replicate hmem

theorem Stored.shortText (hp : p.Stored) (h : p.utf8 i = .ok text) : ShortText text :=
  hp.fits (utf8_eq_ok.1 h)

theorem Stored.shortClassName (hp : p.Stored) (h : p.className i = .ok text) : ShortText text := by
  obtain ⟨name, -, hname⟩ := className_eq_ok.1 h
  exact hp.fits hname

theorem stored_empty : empty.Stored := ⟨[], rfl, by decide, by simp⟩

theorem length_slots (c : Constant) : (slots c).length = c.width := by
  unfold slots Constant.width
  split <;> rfl

theorem count_eq (p : ConstantPool) : p.count = p.entries.toList.length := rfl

/-- A constant at the end takes up its width. -/
theorem count_of_append (hq : q.entries.toList = p.entries.toList ++ slots c) :
    q.count = p.count + c.width := by
  rw [count_eq, hq, List.length_append, length_slots, ← count_eq]

/-- **What putting a constant at the end does.** -/
theorem add_eq_ok (h : (add c).run p = .ok i q) :
    p.count + c.width ≤ 65535 ∧ i.toNat = p.count ∧
      q.entries.toList = p.entries.toList ++ slots c := by
  obtain ⟨_, _, hget, h⟩ := PoolM.bind_eq_ok.1 h
  cases hget
  dsimp only at h
  split at h
  · rename_i hroom
    obtain ⟨_, _, hset, h⟩ := PoolM.bind_eq_ok.1 h
    cases hset
    obtain ⟨rfl, rfl⟩ := PoolM.pure_eq_ok.1 h
    refine ⟨hroom, ?_, by simp⟩
    rw [UInt16.toNat_ofNat']
    omega
  · exact absurd h PoolM.throw_ne_ok

theorem Stored.add (hp : p.Stored) (hc : c.Fits) (h : (add c).run p = .ok i q) : q.Stored := by
  obtain ⟨constants, hholds, -, hfits⟩ := hp
  obtain ⟨hroom, -, hq⟩ := add_eq_ok h
  refine ⟨constants ++ [c], ?_, ?_, ?_⟩
  · rw [Holds, hq, hholds]; simp
  · rw [count_of_append hq]; exact hroom
  · intro c' hc'
    obtain hc' | hc' := List.mem_append.1 hc'
    · exact hfits c' hc'
    · rw [List.mem_singleton.1 hc']; exact hc

theorem lookup_add (h : (add c).run p = .ok i q) : q.lookup i = .ok c := by
  obtain ⟨-, hi, hq⟩ := add_eq_ok h
  rw [lookup_eq_ok, hq, hi, count_eq, List.getElem?_append_right (Nat.le_refl _), Nat.sub_self]
  rfl

theorem add_run (h : p.count + c.width ≤ 65535) :
    (add c).run p = .ok (UInt16.ofNat p.count) ⟨p.entries.appendList (slots c)⟩ := by
  refine PoolM.bind_eq_ok.2 ⟨p, p, rfl, ?_⟩
  rw [if_pos h]
  rfl

/-- A constant is not put at the end if there is no room for it, and then nothing changes. -/
theorem add_eq_error {fault : Fault} (h : (add c).run p = .error fault q) :
    fault = .constantPoolFull (UInt16.ofNat p.count) ∧ q = p := by
  by_cases hroom : p.count + c.width ≤ 65535
  · rw [add_run hroom] at h
    cases h
  · unfold add at h
    rw [PoolM.get_bind_run, if_neg hroom] at h
    cases h
    exact ⟨rfl, rfl⟩

theorem findIndex?_toList (p : ConstantPool) (test : Constant → Bool) :
    p.findIndex? test = (p.entries.toList.findIdx? (·.any test)).map UInt16.ofNat := by
  rw [ConstantPool.findIndex?, ← List.findIdx?_toArray, Array.toArray_toList]

/-- A constant is missing if it is none of the entries. -/
theorem findIndex?_eq_none : p.findIndex? (· == c) = none ↔ some c ∉ p.entries.toList := by
  rw [findIndex?_toList, Option.map_eq_none_iff, List.findIdx?_eq_none_iff]
  constructor
  · intro h hmem
    simpa using h _ hmem
  · intro h entry hentry
    cases entry with
    | none => rfl
    | some d =>
      have hne : d ≠ c := fun heq => h (heq ▸ hentry)
      simpa using hne

/-- A constant at the end is found if none in front of it is. -/
theorem findIndex?_append (hq : q.entries.toList = p.entries.toList ++ slots c)
    (test : Constant → Bool) : q.findIndex? test =
      (p.findIndex? test).or (if test c then some (UInt16.ofNat p.count) else none) := by
  have hslots : (slots c).findIdx? (·.any test) = if test c then some 0 else none := by
    rw [slots, List.findIdx?_cons]
    simp [List.findIdx?_replicate]
  rw [findIndex?_toList, findIndex?_toList, hq, List.findIdx?_append, hslots, Option.map_or]
  cases test c with
  | true => simp [count_eq]
  | false => rfl

/-- A constant that is found is not added. -/
theorem intern_of_found (h : p.findIndex? (· == c) = some i) : (intern c).run p = .ok i p := by
  unfold intern
  rw [PoolM.get_bind_run, h]
  rfl

/-- A constant that is not found is added. -/
theorem intern_of_missing (h : p.findIndex? (· == c) = none) :
    (intern c).run p = (add c).run p := by
  unfold intern
  rw [PoolM.get_bind_run, h]

/-- A constant that is missing is put at the end, if there is room for it. -/
theorem intern_run (hmissing : some c ∉ p.entries.toList) (hroom : p.count + c.width ≤ 65535) :
    (intern c).run p = .ok (UInt16.ofNat p.count) ⟨p.entries.appendList (slots c)⟩ :=
  (intern_of_missing (findIndex?_eq_none.2 hmissing)).trans (add_run hroom)

/-- A class whose name is missing is put at the end, behind its name. -/
theorem classIndex_run {name : String} (htext : some (.utf8 name) ∉ p.entries.toList)
    (hclass : some (.classRef (UInt16.ofNat p.count)) ∉ p.entries.toList)
    (hroom : p.count + 2 ≤ 65535) :
    (classIndex name).run p = .ok (UInt16.ofNat (p.count + 1))
      ⟨p.entries.appendList [some (.utf8 name), some (.classRef (UInt16.ofNat p.count))]⟩ := by
  let q : ConstantPool := ⟨p.entries.appendList (slots (.utf8 name))⟩
  have hq : q.entries.toList = p.entries.toList ++ slots (.utf8 name) := Array.toList_appendList
  have hcount : q.count = p.count + 1 := count_of_append hq
  have hfirst : (textIndex name).run p = .ok (UInt16.ofNat p.count) q :=
    intern_run htext (Nat.le_of_succ_le hroom)
  have hnew : some (.classRef (UInt16.ofNat p.count)) ∉ q.entries.toList := by
    rw [hq, List.mem_append, not_or]
    exact ⟨hclass, by simp [slots]⟩
  refine PoolM.bind_eq_ok.2 ⟨_, q, hfirst, (intern_run hnew (by rw [hcount]; exact hroom)).trans ?_⟩
  rw [hcount]
  rfl

/-- **What asking for a constant can do.** The constant is there, or it is put at the end, or there
is no room for it. -/
theorem intern_outcome (c : Constant) (p : ConstantPool) :
    (∃ i, p.findIndex? (· == c) = some i ∧ (intern c).run p = .ok i p) ∨
    (p.findIndex? (· == c) = none ∧ ∃ i q, (add c).run p = .ok i q ∧ (intern c).run p = .ok i q) ∨
    (p.findIndex? (· == c) = none ∧
      ∃ index, (intern c).run p = .error (.constantPoolFull index) p) := by
  cases h : p.findIndex? (· == c) with
  | some i => exact .inl ⟨i, rfl, intern_of_found h⟩
  | none =>
    by_cases hroom : p.count + c.width ≤ 65535
    · exact .inr (.inl ⟨rfl, _, _, add_run hroom, intern_run (findIndex?_eq_none.1 h) hroom⟩)
    · rw [intern_of_missing h]
      refine .inr (.inr ⟨rfl, UInt16.ofNat p.count, ?_⟩)
      unfold add
      rw [PoolM.get_bind_run, if_neg hroom]
      rfl

/-- A constant that cannot be had is one that the pool has no room for, and then nothing changes. -/
theorem intern_eq_error {fault : Fault} (h : (intern c).run p = .error fault q) :
    (∃ index, fault = .constantPoolFull index) ∧ q = p := by
  cases hfound : p.findIndex? (· == c) with
  | some i =>
    rw [intern_of_found hfound] at h
    cases h
  | none =>
    rw [intern_of_missing hfound] at h
    obtain ⟨rfl, rfl⟩ := add_eq_error h
    exact ⟨⟨_, rfl⟩, rfl⟩

/-- **A constant that was asked for** was found, or it is put at the end. -/
theorem intern_cases (h : (intern c).run p = .ok i q) :
    (p.findIndex? (· == c) = some i ∧ q = p) ∨
      (p.findIndex? (· == c) = none ∧ (add c).run p = .ok i q) := by
  cases hfound : p.findIndex? (· == c) with
  | some j =>
    rw [intern_of_found hfound] at h
    cases h
    exact .inl ⟨rfl, rfl⟩
  | none =>
    rw [intern_of_missing hfound] at h
    exact .inr ⟨rfl, h⟩

/-- **An index for a constant** stands for it, whether the pool had it before or not. -/
theorem lookup_intern (hcount : p.count ≤ 65535) (h : (intern c).run p = .ok i q) :
    q.lookup i = .ok c := by
  obtain ⟨hfound, rfl⟩ | ⟨-, hadd⟩ := intern_cases h
  · obtain ⟨n, hn, rfl⟩ := Option.map_eq_some_iff.1 hfound
    obtain ⟨hlt, htest, -⟩ := Array.findIdx?_eq_some_iff_getElem.1 hn
    have hsmall : (UInt16.ofNat n).toNat = n := by
      rw [UInt16.toNat_ofNat']
      unfold count at hcount
      omega
    rw [lookup_eq_ok, hsmall, Array.getElem?_toList, Array.getElem?_eq_getElem hlt]
    rw [Option.any_eq_true] at htest
    obtain ⟨c', hc', heq⟩ := htest
    rw [hc', eq_of_beq heq]
  · exact lookup_add hadd

/-- **Asking for a constant** makes the pool grow at most, keeps an invariant of it, and leaves the
constant in it. -/
def Interns (I : ConstantPool → Prop) (c : Constant) : Prop :=
  ∀ ⦃p : ConstantPool⦄ ⦃i : PoolIndex⦄ ⦃q : ConstantPool⦄,
    I p → (intern c).run p = .ok i q → p.Grows q ∧ I q ∧ q.lookup i = .ok c

/-- A pool with an index for each of its slots stays one. -/
theorem interns_count (c : Constant) : Interns (·.count ≤ 65535) c := by
  intro p i q hcount h
  have hlookup := lookup_intern hcount h
  obtain ⟨-, rfl⟩ | ⟨-, hadd⟩ := intern_cases h
  · exact ⟨.refl q, hcount, hlookup⟩
  · obtain ⟨hroom, -, hq⟩ := add_eq_ok hadd
    have hcount' : q.count ≤ 65535 := by
      rw [count_of_append hq]
      exact hroom
    exact ⟨⟨_, hq⟩, hcount', hlookup⟩

/-- A pool that a class file can hold stays one. -/
theorem interns_stored (hc : c.Fits) : Interns Stored c := by
  intro p i q hp h
  obtain ⟨constants, -, hcount, -⟩ := id hp
  obtain ⟨hgrows, -, hlookup⟩ := interns_count c hcount h
  obtain ⟨-, rfl⟩ | ⟨-, hadd⟩ := intern_cases h
  · exact ⟨hgrows, hp, hlookup⟩
  · exact ⟨hgrows, hp.add hc hadd, hlookup⟩

section Interns

variable {I : ConstantPool → Prop}

/-- **An index for a text** stands for it. -/
theorem Interns.givesText (htext : Interns I (.utf8 text)) (hp : I p)
    (h : (textIndex text).run p = .ok i q) : p.Grows q ∧ I q ∧ q.utf8 i = .ok text := by
  obtain ⟨hgrows, hq, hi⟩ := htext hp h
  exact ⟨hgrows, hq, utf8_eq_ok.2 hi⟩

/-- What asking for a class does: it makes the pool grow at most, keeps an invariant of it, and the
index stands for the class. -/
def GivesClass (I : ConstantPool → Prop) (text : String) : Prop :=
  ∀ ⦃p : ConstantPool⦄ ⦃i : PoolIndex⦄ ⦃q : ConstantPool⦄,
    I p → (classIndex text).run p = .ok i q → p.Grows q ∧ I q ∧ q.className i = .ok text

/-- **An index for a class** stands for it. -/
theorem Interns.givesClass (htext : Interns I (.utf8 text))
    (hclass : ∀ n, Interns I (.classRef n)) : GivesClass I text := by
  intro p i q hp h
  obtain ⟨name, p', hname, h⟩ := PoolM.bind_eq_ok.1 h
  obtain ⟨hgrows, hp', hutf8⟩ := htext.givesText hp hname
  obtain ⟨hgrows', hq, hi⟩ := hclass name hp' h
  exact ⟨hgrows.trans hgrows', hq,
    className_eq_ok.2 ⟨name, hi, utf8_eq_ok.1 (hgrows'.utf8 hutf8)⟩⟩

end Interns

theorem intern_eq_ok (hp : p.Stored) (hc : c.Fits) (h : (intern c).run p = .ok i q) :
    p.Grows q ∧ q.Stored ∧ q.lookup i = .ok c :=
  interns_stored hc hp h

theorem textIndex_eq_ok (hp : p.Stored) (ht : ShortText text)
    (h : (textIndex text).run p = .ok i q) : p.Grows q ∧ q.Stored ∧ q.utf8 i = .ok text := by
  have htext : Interns Stored (.utf8 text) := interns_stored ht
  exact htext.givesText hp h

theorem givesClass_stored (ht : ShortText text) : GivesClass Stored text := by
  have htext : Interns Stored (.utf8 text) := interns_stored ht
  exact htext.givesClass fun n => interns_stored trivial

theorem classIndex_eq_ok (hp : p.Stored) (ht : ShortText text)
    (h : (classIndex text).run p = .ok i q) : p.Grows q ∧ q.Stored ∧ q.className i = .ok text :=
  givesClass_stored ht hp h

end ConstantPool

end FreshLocal
