import FreshLocal.Proofs.PoolBytes
import FreshLocal.Proofs.PoolSettling

/-!
# Requests to a constant pool

A pool is new or was read, and then it is asked for indices of texts and classes.
A request may be refused, since 16 bits cannot hold another index; what it put
into the pool until then stays there.

**Argument.** A request asks for one constant, or for two in turn. Asking for a
constant can do three things (`ConstantPool.intern_outcome`): it is found, it is
put at the end, or there is no room. In each of them the pool keeps what it had,
its constants stand one behind the other, and of a constant that it has there is
not one more (`ConstantPool.Kept`). This goes on from request to request.

* `PoolRequest`, `ConstantPool.Obtained`: requests, and the pools that they lead to.
* `ConstantPool.Indexed`: where the constants of a pool stand.
* `ConstantPool.Packed.indexed`: **constants in a row** are found at the sums of
  the widths in front of them.
* `PoolRequest.kept_after`: what a request changes at most, also if it is refused.
* `ConstantPool.Obtained.lawful`: **the laws of a pool**.
-/

namespace FreshLocal

/-- How many indices some constants take. -/
def Constant.totalWidth (constants : List Constant) : Nat := (constants.map width).sum

/-- The pool behind a step, whether the step failed or not. -/
def PoolM.poolAfter {α : Type} (x : PoolM α) (p : ConstantPool) : ConstantPool :=
  match x.run p with
  | .ok _ q | .error _ q => q

/-- What a pool may be asked for. -/
inductive PoolRequest
  | text (text : String)
  | className (name : String)

namespace PoolRequest

/-- The index of what is asked for, which is put into the pool where it has to. -/
def index : PoolRequest → PoolM PoolIndex
  | text t => ConstantPool.textIndex t
  | className name => ConstantPool.classIndex name

/-- The pool behind a request, whether it was answered or refused. -/
def after (r : PoolRequest) (p : ConstantPool) : ConstantPool := r.index.poolAfter p

/-- Does an index of the pool stand for what was asked for? -/
def StandsAt (p : ConstantPool) (i : PoolIndex) : PoolRequest → Prop
  | text t => p.utf8 i = .ok t
  | className name => p.className i = .ok name

end PoolRequest

namespace ConstantPool

variable {p q r : ConstantPool} {c : Constant} {i : PoolIndex}

/-- The constants of a pool, in the order in which they stand. -/
def inOrder (p : ConstantPool) : List Constant := p.entries.toList.filterMap id

/-- The pool behind some requests in turn, each of which may be refused. -/
def afterAll (p : ConstantPool) (requests : List PoolRequest) : ConstantPool :=
  requests.foldl (fun q r => r.after q) p

/-- **A pool that the program can come to**: a new one or one that was read, after some requests. -/
inductive Obtained : ConstantPool → Prop
  | empty : Obtained empty
  | read {cursor cursor' : Cursor} {p : ConstantPool} :
    ConstantPool.read cursor = .ok (p, cursor') → Obtained p
  | after {p : ConstantPool} (r : PoolRequest) : Obtained p → Obtained (r.after p)

/-- **Where the constants of a pool stand**: each of them behind the indices of those in front of
it, and nothing at any other index. -/
structure Indexed (p : ConstantPool) : Prop where
  lookup_iff : ∀ i c, p.lookup i = .ok c ↔ ∃ before behind, p.inOrder = before ++ c :: behind ∧
    i.toNat = 1 + Constant.totalWidth before
  zero : ∀ c, p.lookup 0 ≠ .ok c
  secondHalf : ∀ i c, p.lookup i = .ok c → c.width = 2 →
    ∀ j c', j.toNat = i.toNat + 1 → p.lookup j ≠ .ok c'
  beyond : ∀ i c, p.count ≤ i.toNat → p.lookup i ≠ .ok c
  count_eq : p.count = 1 + Constant.totalWidth p.inOrder
  count_le : p.count ≤ 65535
  /-- The count is written in 16 bits as it is. -/
  count_exact : (UInt16.ofNat p.count).toNat = p.count

/-- No two texts of the pool are equal, and no two classes have their name at the same index. -/
def Unrepeated (p : ConstantPool) : Prop :=
  (∀ text, p.inOrder.count (.utf8 text) ≤ 1) ∧ ∀ name, p.inOrder.count (.classRef name) ≤ 1

/-- **The laws of a pool** under one more request. -/
structure Lawful (p : ConstantPool) (r : PoolRequest) : Prop where
  /-- An index keeps what it stands for, also if the request is refused. -/
  keeps : ∀ i c, p.lookup i = .ok c → (r.after p).lookup i = .ok c
  /-- The answer stands for what was asked for. -/
  answers : ∀ i q, r.index.run p = .ok i q → r.StandsAt q i
  /-- At once or later, the same request has the same answer and changes nothing. -/
  again : ∀ i q, r.index.run p = .ok i q → ∀ later,
    r.index.run (q.afterAll later) = .ok i (q.afterAll later)
  indexed : p.Indexed
  indexed_after : (r.after p).Indexed
  unrepeated : p.Unrepeated → (r.after p).Unrepeated

/-! ## Constants in a row -/

theorem width_cases (c : Constant) : c.width = 1 ∨ c.width = 2 := by
  unfold Constant.width
  split
  · exact .inr rfl
  · exact .inr rfl
  · exact .inl rfl

theorem totalWidth_cons (c : Constant) (cs : List Constant) :
    Constant.totalWidth (c :: cs) = c.width + Constant.totalWidth cs := by
  simp [Constant.totalWidth]

theorem totalWidth_append (cs ds : List Constant) :
    Constant.totalWidth (cs ++ ds) = Constant.totalWidth cs + Constant.totalWidth ds := by
  simp [Constant.totalWidth]

theorem length_flatMap_slots (cs : List Constant) :
    (cs.flatMap slots).length = Constant.totalWidth cs := by
  induction cs with
  | nil => rfl
  | cons c cs ih => rw [List.flatMap_cons, List.length_append, length_slots, ih, totalWidth_cons]

theorem Holds.inOrder_eq {cs : List Constant} (h : p.Holds cs) : p.inOrder = cs := by
  rw [inOrder, h, List.filterMap_cons_none rfl, filterMap_flatMap_slots]

/-- **A constant stands in a row** behind the slots of those in front of it, and nowhere else. -/
theorem getElem?_flatMap_slots {cs : List Constant} {n : Nat} :
    (cs.flatMap slots)[n]? = some (some c) ↔
      ∃ before behind, cs = before ++ c :: behind ∧ n = Constant.totalWidth before := by
  -- over the constants: the place is that of the first one, in its second half, or behind it
  induction cs generalizing n with
  | nil => simp
  | cons d cs ih =>
    have hpos := d.width_pos
    rw [List.flatMap_cons]
    constructor
    · intro h
      rcases Nat.lt_or_ge n (slots d).length with hlt | hge
      · rw [List.getElem?_append_left hlt] at h
        cases n with
        | zero =>
          simp only [slots, List.getElem?_cons_zero, Option.some.injEq] at h
          exact ⟨[], cs, by rw [h]; rfl, rfl⟩
        | succ n =>
          simp only [slots, List.getElem?_cons_succ] at h
          have hmem := List.mem_of_getElem? h
          cases List.eq_of_mem_replicate hmem
      · rw [List.getElem?_append_right hge] at h
        obtain ⟨before, behind, hcs, hn⟩ := ih.1 h
        rw [length_slots] at hge hn
        refine ⟨d :: before, behind, by rw [hcs]; rfl, ?_⟩
        rw [totalWidth_cons]
        omega
    · rintro ⟨before, behind, hcs, hn⟩
      cases before with
      | nil =>
        obtain ⟨rfl, rfl⟩ := List.cons.inj hcs
        subst hn
        rfl
      | cons d' before =>
        obtain ⟨rfl, hrest⟩ := List.cons.inj hcs
        rw [totalWidth_cons] at hn
        have hge : (slots d).length ≤ n := by rw [length_slots]; omega
        rw [List.getElem?_append_right hge]
        refine ih.2 ⟨before, behind, hrest, ?_⟩
        rw [length_slots]
        omega

/-- The constants stand one behind the other from index 1 on, and 16 bits hold the indices. -/
def Packed (p : ConstantPool) : Prop := p.Holds p.inOrder ∧ p.count ≤ 65535

theorem Stored.packed (h : p.Stored) : p.Packed := by
  obtain ⟨constants, hholds, hcount, -⟩ := h
  refine ⟨?_, hcount⟩
  rw [hholds.inOrder_eq]
  exact hholds

theorem Packed.lookup_iff (h : p.Packed) : p.lookup i = .ok c ↔
    ∃ before behind, p.inOrder = before ++ c :: behind ∧
      i.toNat = 1 + Constant.totalWidth before := by
  have hentries : p.entries.toList = none :: p.inOrder.flatMap slots := h.1
  rw [lookup_eq_ok, hentries]
  cases hi : i.toNat with
  | zero =>
    constructor
    · intro hnone
      cases hnone
    · rintro ⟨before, behind, -, hn⟩
      omega
  | succ n =>
    rw [List.getElem?_cons_succ, getElem?_flatMap_slots]
    constructor
    · rintro ⟨before, behind, hsplit, hn⟩
      exact ⟨before, behind, hsplit, by omega⟩
    · rintro ⟨before, behind, hsplit, hn⟩
      exact ⟨before, behind, hsplit, by omega⟩

/-- **Constants in a row** are found at the sums of the widths in front of them. -/
theorem Packed.indexed (h : p.Packed) : p.Indexed := by
  have hcount : p.count = 1 + Constant.totalWidth p.inOrder := by
    rw [ConstantPool.count_eq, h.1, List.length_cons, length_flatMap_slots, Nat.add_comm]
  have hle : p.count ≤ 65535 := h.2
  refine ⟨fun i c => h.lookup_iff, ?_, ?_, ?_, hcount, hle, by rw [UInt16.toNat_ofNat']; omega⟩
  · intro c hc
    obtain ⟨before, behind, -, hi⟩ := h.lookup_iff.1 hc
    have hzero : (0 : PoolIndex).toNat = 0 := rfl
    omega
  · intro i c hc hwide j c' hj hc'
    -- the two would be parted by a constant of width one, or by none
    obtain ⟨before, behind, hsplit, hi⟩ := h.lookup_iff.1 hc
    obtain ⟨before', behind', hsplit', hj'⟩ := h.lookup_iff.1 hc'
    have hboth : before ++ c :: behind = before' ++ c' :: behind' := hsplit ▸ hsplit'
    obtain ⟨more, hmore, htail⟩ | ⟨more, hmore, htail⟩ := List.append_eq_append_iff.1 hboth
    · rw [hmore, totalWidth_append] at hj'
      cases more with
      | nil =>
        have hnil : Constant.totalWidth [] = 0 := rfl
        omega
      | cons d more =>
        obtain ⟨rfl, -⟩ := List.cons.inj htail
        rw [totalWidth_cons] at hj'
        omega
    · rw [hmore, totalWidth_append] at hi
      omega
  · intro i c hle hc
    obtain ⟨before, behind, hsplit, hi⟩ := h.lookup_iff.1 hc
    rw [hsplit, totalWidth_append, totalWidth_cons] at hcount
    have hpos := c.width_pos
    omega

/-! ## What a request changes -/

/-- **What a step does to a pool at most**: it puts constants in a row behind the others, and only
such that the pool did not have. -/
structure Kept (p q : ConstantPool) : Prop where
  grows : p.Grows q
  packed : p.Packed → q.Packed
  fresh : ∀ c, q.inOrder.count c ≤ max (p.inOrder.count c) 1

theorem Kept.refl (p : ConstantPool) : p.Kept p :=
  ⟨.refl p, id, fun _ => Nat.le_max_left _ _⟩

theorem Kept.trans (h : p.Kept q) (h' : q.Kept r) : p.Kept r := by
  refine ⟨h.grows.trans h'.grows, fun hp => h'.packed (h.packed hp), fun c => ?_⟩
  have hq := h.fresh c
  have hr := h'.fresh c
  omega

theorem Kept.unrepeated (h : p.Kept q) (hp : p.Unrepeated) : q.Unrepeated := by
  obtain ⟨htexts, hclasses⟩ := hp
  refine ⟨fun text => ?_, fun name => ?_⟩
  · have hle := h.fresh (.utf8 text)
    have hone := htexts text
    omega
  · have hle := h.fresh (.classRef name)
    have hone := hclasses name
    omega

/-- A constant that is not found is none of those of the pool. -/
theorem notMem_of_findIndex? (h : p.findIndex? (· == c) = none) : c ∉ p.inOrder := by
  intro hc
  obtain ⟨entry, hentry, rfl⟩ := List.mem_filterMap.1 hc
  exact findIndex?_eq_none.1 h hentry

theorem inOrder_add (h : (add c).run p = .ok i q) : q.inOrder = p.inOrder ++ [c] := by
  obtain ⟨-, -, hq⟩ := add_eq_ok h
  rw [inOrder, hq, List.filterMap_append, filterMap_slots]
  rfl

/-- A constant that the pool did not have is put behind the others. -/
theorem kept_add (hnew : c ∉ p.inOrder) (h : (add c).run p = .ok i q) : p.Kept q := by
  obtain ⟨hroom, -, hq⟩ := add_eq_ok h
  have horder := inOrder_add h
  refine ⟨⟨_, hq⟩, fun hp => ⟨?_, ?_⟩, fun d => ?_⟩
  · have hentries : p.entries.toList = none :: p.inOrder.flatMap slots := hp.1
    rw [Holds, horder, hq, hentries]
    simp
  · rw [count_of_append hq]
    exact hroom
  · rw [horder, List.count_append]
    by_cases hdc : d = c
    · subst hdc
      have hzero : p.inOrder.count d = 0 := List.count_eq_zero.2 hnew
      have hone : [d].count d = 1 := by simp
      omega
    · have hzero : [c].count d = 0 := List.count_eq_zero.2 (by simpa using hdc)
      omega

/-- **Asking for a constant** changes no more than that, also if there is no room. -/
theorem kept_intern (c : Constant) (p : ConstantPool) : p.Kept ((intern c).poolAfter p) := by
  obtain ⟨i, -, hrun⟩ | ⟨hnone, i, q, hadd, hrun⟩ | ⟨-, fault, hrun⟩ := intern_outcome c p
  · rw [PoolM.poolAfter, hrun]
    exact .refl p
  · rw [PoolM.poolAfter, hrun]
    exact kept_add (notMem_of_findIndex? hnone) hadd
  · rw [PoolM.poolAfter, hrun]
    exact .refl p

end ConstantPool

namespace PoolM

variable {α β : Type} {x : PoolM α} {f : α → PoolM β} {p q : ConstantPool} {a : α}

theorem poolAfter_of_ok (h : x.run p = .ok a q) : x.poolAfter p = q := by
  rw [poolAfter, h]

/-- The pool behind two steps is that behind the first, or what the second makes of it. -/
theorem poolAfter_bind (x : PoolM α) (f : α → PoolM β) (p : ConstantPool) :
    (x >>= f).poolAfter p = x.poolAfter p ∨
      ∃ a, x.run p = .ok a (x.poolAfter p) ∧
        (x >>= f).poolAfter p = (f a).poolAfter (x.poolAfter p) := by
  have hbind : (x >>= f).run p = EStateM.bind x f p := rfl
  unfold poolAfter
  rw [hbind]
  unfold EStateM.bind EStateM.run
  rcases x p with ⟨a, q⟩ | ⟨fault, q⟩
  · exact .inr ⟨a, rfl, rfl⟩
  · exact .inl rfl

end PoolM

namespace PoolRequest

open ConstantPool

variable {p q : ConstantPool} {i : PoolIndex}

/-- **What a request changes**, whether it is answered or refused. -/
theorem kept_after (r : PoolRequest) (p : ConstantPool) : p.Kept (r.after p) := by
  cases r with
  | text t => exact kept_intern (.utf8 t) p
  | className name =>
    have hname := kept_intern (.utf8 name) p
    obtain hrefused | ⟨nameIndex, -, hclass⟩ :=
      PoolM.poolAfter_bind (textIndex name) (fun nameIndex => intern (.classRef nameIndex)) p
    · show p.Kept ((classIndex name).poolAfter p)
      rw [classIndex, hrefused]
      exact hname
    · show p.Kept ((classIndex name).poolAfter p)
      rw [classIndex, hclass]
      exact hname.trans (kept_intern (.classRef nameIndex) _)

theorem settles_index (r : PoolRequest) : r.index.Settles := by
  cases r with
  | text t => exact PoolM.settles_textIndex t
  | className name => exact PoolM.settles_classIndex name

/-- **The answer to a request** stands for what was asked for. -/
theorem standsAt_of_index (r : PoolRequest) (hp : p.Packed) (h : r.index.run p = .ok i q) :
    r.StandsAt q i := by
  cases r with
  | text t => exact utf8_eq_ok.2 (lookup_intern hp.2 h)
  | className name =>
    obtain ⟨nameIndex, p', hname, hclass⟩ := PoolM.bind_eq_ok.1 h
    have hkept : p.Kept ((textIndex name).poolAfter p) := kept_intern (.utf8 name) p
    rw [PoolM.poolAfter_of_ok hname] at hkept
    have hp' := hkept.packed hp
    have htext : p'.lookup nameIndex = .ok (.utf8 name) := lookup_intern hp.2 hname
    have hgrows : p'.Grows q := (PoolM.settles_intern _ hclass).1
    exact className_eq_ok.2 ⟨nameIndex, lookup_intern hp'.2 hclass, hgrows.lookup htext⟩

end PoolRequest

namespace ConstantPool

variable {p : ConstantPool}

theorem kept_afterAll (requests : List PoolRequest) (p : ConstantPool) :
    p.Kept (p.afterAll requests) := by
  induction requests generalizing p with
  | nil => exact .refl p
  | cons r requests ih => exact (r.kept_after p).trans (ih (r.after p))

/-- The constants of every pool stand in a row. -/
theorem Obtained.packed (h : Obtained p) : p.Packed := by
  induction h with
  | empty => exact stored_empty.packed
  | read hread => exact (stored_of_read hread).packed
  | after r _ ih => exact (r.kept_after _).packed ih

/-- **The laws of a pool.** Take a pool that is new or was read from any bytes, behind any requests,
of which some may have been refused, and one more request. What an index stands for stays, and the
answer stands for what was asked for; asking again gives the same answer and leaves the pool as it
is. The constants stand in a row from index 1 on, so that an index resolves exactly if it is one
more than the width of the constants in front of one, and 16 bits hold the count. If no text and no
class was there twice, none is. -/
theorem Obtained.lawful (h : Obtained p) (r : PoolRequest) : p.Lawful r := by
  have hpacked := h.packed
  have hkept := r.kept_after p
  refine ⟨fun i c => hkept.grows.lookup, fun i q => r.standsAt_of_index hpacked, ?_,
    hpacked.indexed, (hkept.packed hpacked).indexed, hkept.unrepeated⟩
  intro i q hanswer later
  obtain ⟨-, hagain⟩ := r.settles_index hanswer
  exact hagain _ (kept_afterAll later q).grows

/-- A pool with a constant of width two, a text that is there twice, and the class that the second
of the two names. -/
def repeatingPool : ConstantPool :=
  ⟨#[none, some (.long 7), none, some (.utf8 "A"), some (.utf8 "A"), some (.classRef 4)]⟩

/-- The first of the two texts is used, so the class is not the one that is there. Asked again, the
pool has it. -/
theorem Obtained.lawful_repeating :
    let q : ConstantPool := ⟨repeatingPool.entries.push (some (.classRef 3))⟩
    Obtained repeatingPool ∧ repeatingPool.Lawful (.className "A") ∧
    (classIndex "A").run repeatingPool = .ok 6 q ∧ q.className 6 = .ok "A" ∧
      (classIndex "A").run q = .ok 6 q := by
  intro q
  have hstored : repeatingPool.Stored := by
    refine ⟨[.long 7, .utf8 "A", .utf8 "A", .classRef 4], rfl, by decide, fun c hc => ?_⟩
    simp only [List.mem_cons, List.not_mem_nil, or_false] at hc
    rcases hc with rfl | rfl | rfl | rfl
    · trivial
    · exact ShortText.of_length (by decide)
    · exact ShortText.of_length (by decide)
    · trivial
  have hobtained : Obtained repeatingPool := .read (read_write hstored 0 [])
  have hlawful := hobtained.lawful (.className "A")
  have htext : (textIndex "A").run repeatingPool = .ok 3 repeatingPool :=
    intern_of_found (by rw [findIndex?_toList]; decide)
  have hclass : (intern (.classRef 3)).run repeatingPool = .ok 6 q := by
    rw [intern_of_missing (findIndex?_eq_none.2 (by decide))]
    exact add_run (by decide)
  have hq : (classIndex "A").run repeatingPool = .ok 6 q :=
    PoolM.bind_eq_ok.2 ⟨3, repeatingPool, htext, hclass⟩
  exact ⟨hobtained, hlawful, hq, hlawful.answers 6 q hq, hlawful.again 6 q hq []⟩

end ConstantPool

end FreshLocal
