import FreshLocal.ConstantPool.Indexed
import FreshLocal.Proofs.OffsetVec
import FreshLocal.Proofs.PoolRequests

/-!
# A pool with its indices answers as the array does

In one array the index of a constant is its place, and of equal constants the
first is found by looking at all of them. A pool with its indices does neither:
it keeps offsets beside its constants, and two tables of first places, which all
have to be kept in step.

**Argument.** An invariant says what the three parts have to do with the array
(`IndexedPool.Indexes`). Whether a constant is put at the end or there is no room
for it, both pools come to the same, and the invariant holds again
(`Indexes.sameOutcome_push`). All other steps are made of this one. So the
invariant holds while a pool is read and behind any requests, and from the
invariant alone each answer follows (`Indexes.sameAnswers`).

* `IndexedPool.Indexes`: what the three parts say of an array.
* `Indexes.append`: **a constant at the end**.
* `Indexes.sameOutcome_request`: one request, and `Indexes.afterAll`: many.
* `IndexedPool.SameAnswers`: all that a pool can be asked.
* `IndexedPool.sameAnswers_afterAll`: **a pool that is new or was read answers as
  the array does**, behind any requests.
-/

namespace FreshLocal

namespace ConstantPool

variable {p q : ConstantPool} {c : Constant} {n : Nat}

/-- The constants that are listed are those at their indices. -/
theorem mem_constants : (n, c) ∈ p.constants ↔ p.entries.toList[n]? = some (some c) := by
  simp [constants, List.mem_filterMap, List.mem_zipIdx_iff_getElem?]

/-- Constants are listed in the order of their indices. -/
theorem ascending_constants (p : ConstantPool) :
    (p.constants.map Prod.fst).Pairwise (· < ·) := by
  have hzip : (p.entries.toList.zipIdx).Pairwise (·.2 < ·.2) := by
    rw [← List.pairwise_map, List.zipIdx_map_snd]
    exact List.pairwise_lt_range'
  rw [List.pairwise_map, constants, List.pairwise_filterMap]
  refine hzip.imp fun hlt a ha b hb => ?_
  obtain ⟨_, -, rfl⟩ := Option.map_eq_some_iff.1 ha
  obtain ⟨_, -, rfl⟩ := Option.map_eq_some_iff.1 hb
  exact hlt

theorem map_snd_constants (p : ConstantPool) : p.constants.map Prod.snd = p.inOrder := by
  rw [constants, inOrder, List.map_filterMap]
  -- the indices go on from any number
  generalize 0 = n
  induction p.entries.toList generalizing n with
  | nil => rfl
  | cons entry entries ih =>
    rw [List.zipIdx_cons]
    cases entry with
    | none => simpa using ih (n + 1)
    | some c => simpa using ih (n + 1)

/-- A constant at the end is listed behind the others. -/
theorem constants_append (hq : q.entries.toList = p.entries.toList ++ slots c) :
    q.constants = p.constants ++ [(p.count, c)] := by
  rw [constants, hq, List.zipIdx_append, List.filterMap_append, Nat.zero_add, ← count_eq]
  refine congrArg (p.constants ++ ·) ?_
  obtain hwidth | hwidth := width_cases c
  · simp [slots, hwidth]
  · simp [slots, hwidth]

end ConstantPool

namespace IndexedPool

variable {x y : IndexedPool} {p q : ConstantPool} {c : Constant}

/-- **What the three parts of a pool say** of an array of constants. -/
structure Indexes (x : IndexedPool) (p : ConstantPool) : Prop where
  constants : x.constants.entries.toList = p.constants
  next : x.constants.next = p.count
  texts : ∀ text, x.texts[text]? = p.findIndex? (· == .utf8 text)
  classes : ∀ name, x.classes[name]? = p.findIndex? (· == .classRef name)
  fits : p.count ≤ 65535

/-- What is put into a table unless it is there is found as it was, or as it was put there. -/
theorem getElem?_insertIfNew {κ : Type} [BEq κ] [LawfulBEq κ] [Hashable κ]
    (table : Std.HashMap κ PoolIndex) (key wanted : κ) (i : PoolIndex) :
    (table.insertIfNew key i)[wanted]? =
      (table[wanted]?).or (if key == wanted then some i else none) := by
  rw [Std.HashMap.getElem?_insertIfNew]
  by_cases heq : key = wanted
  · subst heq
    cases hfound : table[key]? with
    | none =>
      have hnew : key ∉ table := by
        rw [Std.HashMap.mem_iff_isSome_getElem?, hfound]
        simp
      simp [hnew]
    | some j =>
      have hold : key ∈ table := by
        rw [Std.HashMap.mem_iff_isSome_getElem?, hfound]
        rfl
      simp [hold]
  · simp [heq]

theorem texts_remember (i : PoolIndex) (c : Constant) (text : String) :
    (x.remember i c).texts[text]? =
      (x.texts[text]?).or (if c == .utf8 text then some i else none) := by
  cases c with
  | utf8 text' =>
    have hsame : (Constant.utf8 text' == .utf8 text) = (text' == text) := by
      rw [Bool.eq_iff_iff]
      simp
    rw [hsame]
    exact getElem?_insertIfNew x.texts text' text i
  | _ => simp [remember]

theorem classes_remember (i : PoolIndex) (c : Constant) (name : PoolIndex) :
    (x.remember i c).classes[name]? =
      (x.classes[name]?).or (if c == .classRef name then some i else none) := by
  cases c with
  | classRef name' =>
    have hsame : (Constant.classRef name' == .classRef name) = (name' == name) := by
      rw [Bool.eq_iff_iff]
      simp
    rw [hsame]
    exact getElem?_insertIfNew x.classes name' name i
  | _ => simp [remember]

theorem Indexes.count_eq (h : x.Indexes p) : x.count = UInt16.ofNat p.count := by
  rw [IndexedPool.count, h.next]

theorem Indexes.toNat_count (h : x.Indexes p) : x.count.toNat = p.count := by
  have hfits := h.fits
  rw [h.count_eq, UInt16.toNat_ofNat']
  omega

theorem indexes_empty : empty.Indexes .empty := by
  have hnone : ∀ test, ConstantPool.empty.findIndex? test = none := fun test => by
    rw [ConstantPool.findIndex?_toList]
    rfl
  refine ⟨rfl, rfl, fun text => ?_, fun name => ?_, by decide⟩
  · rw [hnone]
    exact Std.HashMap.getElem?_empty
  · rw [hnone]
    exact Std.HashMap.getElem?_empty

/-- **A constant at the end** of both. -/
theorem Indexes.append (h : x.Indexes p) (hroom : p.count + c.width ≤ 65535)
    (hq : q.entries.toList = p.entries.toList ++ ConstantPool.slots c) :
    (x.append c).Indexes q := by
  have hcount := ConstantPool.count_of_append hq
  refine ⟨?_, ?_, fun text => ?_, fun name => ?_, by omega⟩
  · show (x.constants.entries.push (x.constants.next, c)).toList = _
    rw [Array.toList_push, ConstantPool.constants_append hq, h.constants, h.next]
  · show x.constants.next + c.width = _
    rw [h.next, hcount]
  · show (x.remember x.count c).texts[text]? = _
    rw [texts_remember, ConstantPool.findIndex?_append hq, h.texts, h.count_eq]
  · show (x.remember x.count c).classes[name]? = _
    rw [classes_remember, ConstantPool.findIndex?_append hq, h.classes, h.count_eq]

/-- Two steps that come to the same, with pools of which one indexes the other. -/
inductive SameOutcome {α : Type} :
    EStateM.Result Fault IndexedPool α → EStateM.Result Fault ConstantPool α → Prop
  | ok {x : IndexedPool} {p : ConstantPool} (a : α) :
    x.Indexes p → SameOutcome (.ok a x) (.ok a p)
  | error {x : IndexedPool} {p : ConstantPool} (fault : Fault) :
    x.Indexes p → SameOutcome (.error fault x) (.error fault p)

/-- **A constant is put at the end of both**, or there is no room in either. -/
theorem Indexes.sameOutcome_push (h : x.Indexes p) (c : Constant) :
    SameOutcome ((push c).run x) ((ConstantPool.add c).run p) := by
  rw [push_run, h.toNat_count]
  by_cases hroom : p.count + c.width ≤ 65535
  · rw [if_pos (by omega), ConstantPool.add_run hroom, h.count_eq]
    exact .ok _ (h.append hroom (Array.toList_appendList ..))
  · rw [if_neg (by omega)]
    rcases hadd : (ConstantPool.add c).run p with ⟨i, q⟩ | ⟨fault, q⟩
    · exact absurd (ConstantPool.add_eq_ok hadd).1 hroom
    · obtain ⟨rfl, rfl⟩ := ConstantPool.add_eq_error hadd
      rw [h.count_eq]
      exact .error _ h

/-- Two steps in a row. -/
theorem SameOutcome.bind {α β : Type} {f : IndexedPoolM α} {g : PoolM α}
    {f' : α → IndexedPoolM β} {g' : α → PoolM β} (h : SameOutcome (f.run x) (g.run p))
    (h' : ∀ a y q, y.Indexes q → SameOutcome ((f' a).run y) ((g' a).run q)) :
    SameOutcome ((f >>= f').run x) ((g >>= g').run p) := by
  show SameOutcome (EStateM.bind f f' x) (EStateM.bind g g' p)
  unfold EStateM.bind
  generalize hx : f.run x = left, hp : g.run p = right at h
  change f x = left at hx
  change g p = right at hp
  rw [hx, hp]
  cases h with
  | ok a hy => exact h' a _ _ hy
  | error fault hy => exact .error fault hy

/-- **A constant is asked for**: its index is the one in a table, or it is put at the end. -/
theorem Indexes.sameOutcome_orPush (h : x.Indexes p) {found : Option PoolIndex}
    (hfound : found = p.findIndex? (· == c)) :
    SameOutcome ((orPush c found).run x) ((ConstantPool.intern c).run p) := by
  cases found with
  | some index =>
    rw [ConstantPool.intern_of_found hfound.symm]
    exact .ok index h
  | none =>
    rw [ConstantPool.intern_of_missing hfound.symm]
    exact h.sameOutcome_push c

theorem Indexes.sameOutcome_textIndex (h : x.Indexes p) (text : String) :
    SameOutcome ((textIndex text).run x) ((ConstantPool.textIndex text).run p) :=
  h.sameOutcome_orPush (h.texts text)

theorem Indexes.sameOutcome_classIndex (h : x.Indexes p) (name : String) :
    SameOutcome ((classIndex name).run x) ((ConstantPool.classIndex name).run p) :=
  (h.sameOutcome_textIndex name).bind fun nameIndex _ _ h' =>
    h'.sameOutcome_orPush (h'.classes nameIndex)

/-! ## Requests -/

/-- The index of what is asked for. -/
def request : PoolRequest → IndexedPoolM PoolIndex
  | .text text => textIndex text
  | .className name => classIndex name

/-- **One request** to both. -/
theorem Indexes.sameOutcome_request (h : x.Indexes p) (r : PoolRequest) :
    SameOutcome ((request r).run x) (r.index.run p) := by
  cases r with
  | text text => exact h.sameOutcome_textIndex text
  | className name => exact h.sameOutcome_classIndex name

/-- The pool behind a request, whether it was answered or refused. -/
def after (x : IndexedPool) (r : PoolRequest) : IndexedPool :=
  match (request r).run x with
  | .ok _ y | .error _ y => y

/-- The pool behind some requests in turn. -/
def afterAll (x : IndexedPool) (requests : List PoolRequest) : IndexedPool := requests.foldl after x

theorem Indexes.after (h : x.Indexes p) (r : PoolRequest) : (x.after r).Indexes (r.after p) := by
  have hrequest := h.sameOutcome_request r
  unfold IndexedPool.after PoolRequest.after PoolM.poolAfter
  generalize (request r).run x = left, r.index.run p = right at hrequest
  cases hrequest with
  | ok a h' => exact h'
  | error fault h' => exact h'

/-- **Requests in turn** to both. -/
theorem Indexes.afterAll (h : x.Indexes p) (requests : List PoolRequest) :
    (x.afterAll requests).Indexes (p.afterAll requests) := by
  induction requests generalizing x p with
  | nil => exact h
  | cons r requests ih => exact ih (h.after r)

/-! ## Reading -/

/-- One round of reading. -/
theorem readFrom_eq (count : Nat) (x : IndexedPool) (c : Cursor) : readFrom count x c =
    if x.constants.next < count then
      match Constant.read c with
      | .error fault => .error (.decode fault)
      | .ok (constant, c) =>
        match (push constant).run x with
        | .error fault _ => .error fault
        | .ok _ y => readFrom count y c
    else .ok (x, c) := by
  rw [readFrom]
  split
  · cases Constant.read c with
    | error fault => rfl
    | ok read =>
      dsimp only
      split
      · rename_i hpush
        rw [hpush]
      · rename_i hpush
        rw [hpush]
  · rfl

/-- **Constants are read** into both, up to the same count. -/
theorem Indexes.sameRead (h : x.Indexes p) {count fuel : Nat} (hfuel : count ≤ p.count + fuel)
    (c : Cursor) :
    (∃ fault, readFrom count x c = .error fault ∧
      ConstantPool.readOnto count fuel p c = .error fault) ∨
    ∃ y q c', readFrom count x c = .ok (y, c') ∧
      ConstantPool.readOnto count fuel p c = .ok (q, c') ∧ y.Indexes q := by
  -- each constant takes an index, so there are never more rounds than indices are left
  induction fuel generalizing x p c with
  | zero =>
    refine .inr ⟨x, p, c, ?_, rfl, h⟩
    rw [readFrom_eq, h.next, if_neg (by omega)]
  | succ fuel ih =>
    rw [readFrom_eq, h.next, ConstantPool.readOnto]
    by_cases hbelow : p.count < count
    · rw [if_pos hbelow, if_pos hbelow]
      cases hc : Constant.read c with
      | error fault => exact .inl ⟨_, rfl, rfl⟩
      | ok read =>
        obtain ⟨constant, c'⟩ := read
        have hpush := h.sameOutcome_push constant
        dsimp only
        rcases hadd : (ConstantPool.add constant).run p with ⟨i, q⟩ | ⟨fault, q⟩
        · rw [hadd] at hpush
          generalize (push constant).run x = left at hpush
          cases hpush with
          | ok a h' =>
            obtain ⟨-, -, hq⟩ := ConstantPool.add_eq_ok hadd
            have hcount := ConstantPool.count_of_append hq
            have hpos := constant.width_pos
            exact ih h' (by omega) c'
        · rw [hadd] at hpush
          generalize (push constant).run x = left at hpush
          cases hpush with
          | error fault h' => exact .inl ⟨fault, rfl, rfl⟩
    · rw [if_neg hbelow, if_neg hbelow]
      exact .inr ⟨x, p, c, rfl, rfl, h⟩

/-! ## Answers -/

/-- What a step answers, apart from the pool behind it. -/
def answer {α σ : Type} : EStateM.Result Fault σ α → Except Fault α
  | .ok a _ => .ok a
  | .error fault _ => .error fault

/-- **All that a pool can be asked** has the same answer from both: what an index stands for, the
index of a text or a class, all constants with their indices, their number, and the binary form. -/
structure SameAnswers (x : IndexedPool) (p : ConstantPool) : Prop where
  lookup : ∀ i, x.lookup i = p.lookup i
  utf8 : ∀ i, x.utf8 i = p.utf8 i
  className : ∀ i, x.className i = p.className i
  index : ∀ r, answer ((request r).run x) = answer (r.index.run p)
  constants : x.constants.entries.toList = p.constants
  count : x.count.toNat = p.count
  write : x.write = p.write

theorem Indexes.lookup_eq (h : x.Indexes p) (i : PoolIndex) : x.lookup i = p.lookup i := by
  have hascending : (x.constants.entries.toList.map Prod.fst).Pairwise (· < ·) :=
    h.constants ▸ p.ascending_constants
  have hget : x.constants.get? i.toNat = (p.entries[i.toNat]?).join := by
    ext c
    rw [OffsetVec.get?_eq_some hascending, h.constants, ConstantPool.mem_constants,
      Array.getElem?_toList, Option.join_eq_some_iff]
  unfold lookup ConstantPool.lookup
  rw [hget]
  rcases p.entries[i.toNat]? with _ | _ | c
  · rfl
  · rfl
  · rfl

theorem Indexes.utf8_eq (h : x.Indexes p) (i : PoolIndex) : x.utf8 i = p.utf8 i := by
  have hlookup := h.lookup_eq i
  unfold utf8 ConstantPool.utf8
  generalize x.lookup i = found at hlookup ⊢
  subst hlookup
  rfl

theorem Indexes.className_eq (h : x.Indexes p) (i : PoolIndex) : x.className i = p.className i := by
  have hlookup := h.lookup_eq i
  unfold className ConstantPool.className
  generalize x.lookup i = found at hlookup ⊢
  subst hlookup
  cases p.lookup i with
  | error fault => rfl
  | ok c =>
    cases c with
    | classRef name => exact h.utf8_eq name
    | _ => rfl

theorem Indexes.write_eq (h : x.Indexes p) : x.write = p.write := by
  have hbytes : p.constants.flatMap (·.2.write) = p.inOrder.flatMap Constant.write := by
    rw [← p.map_snd_constants, List.flatMap_map]
  rw [write, h.count_eq, h.constants, hbytes]
  rfl

/-- **Both answer alike**, since one indexes the other. -/
theorem Indexes.sameAnswers (h : x.Indexes p) : x.SameAnswers p := by
  refine ⟨h.lookup_eq, h.utf8_eq, h.className_eq, fun r => ?_, h.constants, h.toNat_count,
    h.write_eq⟩
  have hrequest := h.sameOutcome_request r
  generalize (request r).run x = left, r.index.run p = right at hrequest
  cases hrequest with
  | ok a _ => rfl
  | error fault _ => rfl

/-- **A pool with its indices answers as the array does**, if both are new or were read from the
same bytes, behind any requests, of which some may have been refused. No bytes are read by one and
not by the other. -/
theorem sameAnswers_afterAll (requests : List PoolRequest) :
    (empty.afterAll requests).SameAnswers (ConstantPool.empty.afterAll requests) ∧
    ∀ c, (∃ fault, read c = .error fault ∧ ConstantPool.read c = .error fault) ∨
      ∃ x p c', read c = .ok (x, c') ∧ ConstantPool.read c = .ok (p, c') ∧
        (x.afterAll requests).SameAnswers (p.afterAll requests) := by
  refine ⟨(indexes_empty.afterAll requests).sameAnswers, fun c => ?_⟩
  unfold read ConstantPool.read
  cases hcount : Reader.u16 c with
  | error fault => exact .inl ⟨_, rfl, rfl⟩
  | ok start =>
    obtain ⟨count, c'⟩ := start
    obtain hfault | ⟨x, p, c'', hx, hp, h⟩ :=
      indexes_empty.sameRead (Nat.le_add_left count.toNat ConstantPool.empty.count) c'
    · exact .inl hfault
    · exact .inr ⟨x, p, c'', hx, hp, (h.afterAll requests).sameAnswers⟩

end IndexedPool

end FreshLocal
